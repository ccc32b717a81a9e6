import PredictiveParser.Proofs.Code.Literal

/-!
# What expressions evaluate to

Generated conditions and tables are made of numbers, characters, names and operators. `evaluate` gives
the value of such an expression, where variables have values. The characters of each operator are put
together first (`pieces`). Then the expression is taken apart at its operators, from the loosest to the
tightest: `||`, `&&`, comparisons, casts, and the signs `!` and `-`. What has no type has no value, and
neither have two comparisons in a row.

`HasValue` says of code that it has a value at a level of operators and that this value does not depend
on what the code stands next to. Expressions are put together from such code:

* `HasValue.compare`, `HasValue.and`: a comparison, and two comparisons with `&&` between them.
* `evaluate_or`, `evaluate_not`: conditions with `||` between them, and `!` in front of a group.
-/
namespace PredictiveParser.Evaluation

open Template

/-! ## Values -/

inductive Value where
  | bool (value : Bool)
  /-- A signed number of 32 bits. -/
  | int (value : Int)
  | char (value : Char)
deriving DecidableEq

namespace Value

/-- The number that a cast makes of a value. -/
def number : Value → Int
  | .bool b => b.toNat
  | .int n => n
  | .char c => c.toNat

def int32? (n : Int) : Option Value :=
  if -0x80000000 ≤ n ∧ n < 0x80000000 then some (.int n) else none

/-- The value of a literal, by its spelling. A number with a suffix is of some other type. -/
def ofLiteral? (spelling : String) : Option Value :=
  match LiteralValue.ofSpelling spelling with
  | .int _ magnitude => if LiteralValue.hasSuffix spelling then none else int32? magnitude
  | .char c => some (.char c)
  | _ => none

def not? : Value → Option Value
  | .bool b => some (.bool !b)
  | .int n => some (.int (-n - 1))
  | .char _ => none

def neg? : Value → Option Value
  | .int n => int32? (-n)
  | _ => none

/-- Compares two values of one type. -/
def compare? (relation : Int → Int → Bool) (a b : Value) : Option Value :=
  match a, b with
  | .bool _, .bool _ | .int _, .int _ | .char _, .char _ =>
    some (.bool (relation a.number b.number))
  | _, _ => none

/-- Joins truth values. A single value may be of any type. -/
def join? (f : Bool → Bool → Bool) : List Value → Option Value
  | [] => none
  | [value] => some value
  | .bool a :: rest =>
    match join? f rest with
    | some (.bool b) => some (.bool (f a b))
    | _ => none
  | _ => none

end Value

/-! ## Expressions -/

/-- What an expression is made of. -/
inductive Piece where
  | operator (chars : List Char)
  | name (name : String)
  /-- A literal or a group, with its value if it has one. -/
  | operand (value : Option Value)
deriving DecidableEq

namespace Piece

/-- A comparison. `<` is none: behind a cast it would begin the arguments of a type. -/
def relation? : Piece → Option (Int → Int → Bool)
  | .operator ['=', '='] => some fun a b => a == b
  | .operator ['!', '='] => some fun a b => a != b
  | .operator ['<', '='] => some fun a b => a ≤ b
  | .operator ['>', '='] => some fun a b => b ≤ a
  | .operator ['>'] => some fun a b => b < a
  | _ => none

def isRelation (piece : Piece) : Bool :=
  piece.relation?.isSome

def and : Piece := .operator ['&', '&']

def or : Piece := .operator ['|', '|']

/-- Puts a piece in front of others. An operator character that is joined to the next one is part of
the same operator. -/
def attach (joint : Bool) (piece : Piece) (rest : List Piece) : List Piece :=
  match joint, piece, rest with
  | true, .operator chars, .operator more :: rest => .operator (chars ++ more) :: rest
  | _, _, _ => piece :: rest

end Piece

section

variable (env : String → Option Value)

def unary : List Piece → Option Value
  | [.operand value] => value
  | [.name name] => env name
  | .operator ['!'] :: rest => (unary rest).bind Value.not?
  | .operator ['-'] :: rest => (unary rest).bind Value.neg?
  | _ => none

def castTo? (value : Value) (type : List Piece) : Option Value :=
  if type = [.name "i32"] then some (.int value.number) else none

def cast (pieces : List Piece) : Option Value :=
  match pieces.splitOn (.name "as") with
  | [] => none
  | operand :: types => (unary env operand).bind fun value => types.foldlM castTo? value

def comparison (pieces : List Piece) : Option Value :=
  match pieces.filterMap Piece.relation?, (pieces.splitOnP Piece.isRelation).mapM (cast env) with
  | [], some [value] => some value
  | [relation], some [a, b] => Value.compare? relation a b
  | _, _ => none

/-- Operands with an operator between them that joins truth values. -/
def joined (operator : Piece) (f : Bool → Bool → Bool) (operand : List Piece → Option Value)
    (pieces : List Piece) : Option Value :=
  ((pieces.splitOn operator).mapM operand).bind (Value.join? f)

def conjunction : List Piece → Option Value :=
  joined .and (fun a b => a && b) (comparison env)

def disjunction : List Piece → Option Value :=
  joined .or (fun a b => a || b) (conjunction env)

mutual

def pieceOf : Token → Piece
  | .ident name =>
    if name = "true" then .operand (some (.bool true))
    else if name = "false" then .operand (some (.bool false))
    else .name name
  | .punct c _ => .operator [c]
  | .literal spelling => .operand (Value.ofLiteral? spelling)
  | .group delimiter body =>
    .operand (if delimiter = .parenthesis then disjunction env (pieces body) else none)

def pieces : Tokens → List Piece
  | [] => []
  | token :: rest => Piece.attach token.isJoint (pieceOf token) (pieces rest)

end

def evaluate (tokens : Tokens) : Option Value :=
  disjunction env (pieces env tokens)

end

variable {env : String → Option Value}

/-! ## Pieces -/

variable (env) in
/-- How the code is read does not depend on what stands behind it. -/
def Closed (code : Tokens) : Prop :=
  ∀ rest, pieces env (code ++ rest) = pieces env code ++ pieces env rest

theorem Closed.append {a b : Tokens} (ha : Closed env a) (hb : Closed env b) :
    Closed env (a ++ b) := by
  intro rest
  rw [List.append_assoc, ha, hb, ha, List.append_assoc]

/-- A token that is joined to nothing. -/
theorem closed_singleton {token : Token} (h : token.isJoint = false) : Closed env [token] := by
  intro rest
  simp only [pieces, h, Piece.attach, List.cons_append, List.nil_append]

theorem pieces_singleton (token : Token) : pieces env [token] = [pieceOf env token] := by
  rw [pieces, pieces]
  unfold Piece.attach
  split
  · rename_i heq
    cases heq
  · rfl

theorem Value.ofLiteral?_toString {n : Nat} (hn : n < 0x80000000) :
    ofLiteral? (toString n) = some (.int n) := by
  unfold ofLiteral?
  rw [LiteralValue.ofSpelling_toString, LiteralValue.hasSuffix_toString]
  simp only [Bool.false_eq_true, if_false]
  rw [int32?, if_pos (by omega)]

theorem pieces_natLiteral {n : Nat} (hn : n < 0x80000000) :
    pieces env (natLiteral n) = [.operand (some (.int n))] := by
  rw [natLiteral, literal, pieces_singleton, pieceOf, Value.ofLiteral?_toString hn]

theorem pieces_opChars_append {chars : List Char} (hne : chars ≠ []) (rest : Tokens) :
    pieces env (opChars chars ++ rest) = .operator chars :: pieces env rest := by
  induction chars with
  | nil => exact (hne rfl).elim
  | cons c chars ih =>
    cases chars with
    | nil => rfl
    | cons d chars =>
      have hjoint : opChars (c :: d :: chars) = .punct c .joint :: opChars (d :: chars) := rfl
      rw [hjoint, List.cons_append, pieces, ih (List.cons_ne_nil d chars)]
      rfl

theorem pieces_op {operator : String} (hne : operator.toList ≠ []) :
    pieces env (op operator) = [.operator operator.toList] := by
  have h : pieces env (op operator ++ []) = _ := pieces_opChars_append hne []
  rwa [List.append_nil] at h

theorem closed_op {operator : String} (hne : operator.toList ≠ []) :
    Closed env (op operator) := by
  intro rest
  rw [pieces_op hne]
  exact pieces_opChars_append hne rest

theorem Closed.pieces_binary {operator : String} {a b : Tokens} (ha : Closed env a)
    (hne : operator.toList ≠ []) : pieces env (a ++ op operator ++ b) =
      pieces env a ++ .operator operator.toList :: pieces env b := by
  rw [ha.append (closed_op hne), ha, pieces_op hne, List.append_assoc]
  rfl

theorem pieces_intercalate {operator : String} (hne : operator.toList ≠ []) {codes : List Tokens}
    (h : ∀ code ∈ codes, Closed env code) :
    pieces env ((op operator).intercalate codes) =
      [Piece.operator operator.toList].intercalate (codes.map (pieces env)) := by
  induction codes with
  | nil => rfl
  | cons code codes ih =>
    have hcode := h code List.mem_cons_self
    cases codes with
    | nil => rw [List.intercalate_singleton, List.map_singleton, List.intercalate_singleton]
    | cons next codes =>
      rw [List.intercalate_cons_cons, List.map_cons, List.map_cons, List.intercalate_cons_cons,
        ← List.map_cons, ← ih fun code hmem => h code (List.mem_cons_of_mem _ hmem),
        (hcode.append (closed_op hne)), hcode, pieces_op hne]

/-! ## Taking expressions apart -/

theorem joined_of_not_mem {operator : Piece} {f : Bool → Bool → Bool}
    {operand : List Piece → Option Value} {ps : List Piece} (h : operator ∉ ps) :
    joined operator f operand ps = operand ps := by
  unfold joined
  rw [List.splitOn_eq_singleton h, List.mapM_cons, List.mapM_nil]
  cases operand ps <;> rfl

theorem joined_intercalate {operator : Piece} {f : Bool → Bool → Bool}
    {operand : List Piece → Option Value} {parts : List (List Piece)} (hne : parts ≠ [])
    (h : ∀ part ∈ parts, operator ∉ part) :
    joined operator f operand ([operator].intercalate parts) =
      (parts.mapM operand).bind (Value.join? f) := by
  rw [joined, List.splitOn_intercalate operator h hne]

theorem filterMap_relation? {ps : List Piece} (h : ∀ p ∈ ps, p.isRelation = false) :
    ps.filterMap Piece.relation? = [] := by
  rw [List.filterMap_eq_nil_iff]
  exact fun p hp => Option.not_isSome_iff_eq_none.1 (Bool.eq_false_iff.1 (h p hp))

theorem comparison_of_not_isRelation {ps : List Piece} (h : ∀ p ∈ ps, p.isRelation = false) :
    comparison env ps = cast env ps := by
  unfold comparison
  rw [filterMap_relation? h, List.splitOnP_eq_singleton h, List.mapM_cons, List.mapM_nil]
  cases cast env ps <;> rfl

theorem comparison_relation {left right : List Piece} {p : Piece} {relation : Int → Int → Bool}
    {a b : Value} (hp : p.relation? = some relation) (hleft : ∀ q ∈ left, q.isRelation = false)
    (hright : ∀ q ∈ right, q.isRelation = false) (ha : cast env left = some a)
    (hb : cast env right = some b) :
    comparison env (left ++ p :: right) = Value.compare? relation a b := by
  have hisRelation : p.isRelation = true := by rw [Piece.isRelation, hp, Option.isSome_some]
  unfold comparison
  rw [List.filterMap_append, filterMap_relation? hleft, List.filterMap_cons_some hp,
    filterMap_relation? hright, List.splitOnP_append_cons_of_forall_mem hleft p hisRelation,
    List.splitOnP_eq_singleton hright, List.mapM_cons, List.mapM_cons, List.mapM_nil, ha, hb]
  rfl

theorem cast_of_not_mem {ps : List Piece} (h : .name "as" ∉ ps) : cast env ps = unary env ps := by
  unfold cast
  rw [List.splitOn_eq_singleton h]
  exact Option.bind_fun_some _

/-! ## Code with a value -/

/-- How loose the operators of an expression may be. -/
inductive Level where
  | cast
  | comparison
  | conjunction

namespace Level

variable (env) in
def read : Level → List Piece → Option Value
  | .cast => Evaluation.cast env
  | .comparison => Evaluation.comparison env
  | .conjunction => Evaluation.conjunction env

/-- The operators that an expression of this level may not have outside of groups. -/
def isLooser : Level → Piece → Bool
  | .cast, p => p.isRelation || p == .and || p == .or
  | .comparison, p => p == .and || p == .or
  | .conjunction, p => p == .or

@[simp] theorem isLooser_name (level : Level) (name : String) :
    level.isLooser (.name name) = false := by
  cases level <;> rfl

@[simp] theorem isLooser_operand (level : Level) (value : Option Value) :
    level.isLooser (.operand value) = false := by
  cases level <;> rfl

@[simp] theorem isLooser_minus (level : Level) : level.isLooser (.operator ['-']) = false := by
  cases level <;> rfl

/-- The signs that join conditions compare nothing. -/
theorem isLooser_relation {p : Piece} {relation : Int → Int → Bool}
    (h : p.relation? = some relation) : Level.comparison.isLooser p = false := by
  have hand : p ≠ .and := by
    rintro rfl
    cases h
  have hor : p ≠ .or := by
    rintro rfl
    cases h
  simp [isLooser, hand, hor]

end Level

variable (env) in
/-- The code has this value at a level of operators, whatever it stands next to. -/
structure HasValue (level : Level) (code : Tokens) (value : Value) : Prop where
  closed : Closed env code
  read : level.read env (pieces env code) = some value
  tight : ∀ p ∈ pieces env code, level.isLooser p = false

namespace HasValue

variable {a b code : Tokens} {v : Value} {x y : Bool} {m n : Int} {level : Level}

theorem isRelation_eq_false (h : HasValue env .cast code v) :
    ∀ p ∈ pieces env code, p.isRelation = false := by
  intro p hp
  have htight := h.tight p hp
  simp only [Level.isLooser, Bool.or_eq_false_iff] at htight
  exact htight.1.1

theorem and_not_mem (h : HasValue env .comparison code v) : Piece.and ∉ pieces env code := by
  intro hp
  have htight := h.tight _ hp
  simp [Level.isLooser] at htight

theorem or_not_mem (h : HasValue env .conjunction code v) : Piece.or ∉ pieces env code := by
  intro hp
  have htight := h.tight _ hp
  simp [Level.isLooser] at htight

theorem comparison (h : HasValue env .cast code v) : HasValue env .comparison code v where
  closed := h.closed
  read := (comparison_of_not_isRelation h.isRelation_eq_false).trans h.read
  tight p hp := by
    have htight := h.tight p hp
    simp only [Level.isLooser, Bool.or_eq_false_iff] at htight ⊢
    exact ⟨htight.1.2, htight.2⟩

theorem conjunction (h : HasValue env .comparison code v) : HasValue env .conjunction code v where
  closed := h.closed
  read := (joined_of_not_mem h.and_not_mem).trans h.read
  tight p hp := by
    have htight := h.tight p hp
    simp only [Level.isLooser, Bool.or_eq_false_iff] at htight ⊢
    exact htight.2

theorem evaluate (h : HasValue env .conjunction code v) : evaluate env code = some v :=
  (joined_of_not_mem h.or_not_mem).trans h.read

/-- A comparison of two numbers. -/
theorem compare (operator : String) {relation : Int → Int → Bool}
    (hrelation : (Piece.operator operator.toList).relation? = some relation)
    (ha : HasValue env .cast a (.int m)) (hb : HasValue env .cast b (.int n)) :
    HasValue env .comparison (a ++ op operator ++ b) (.bool (relation m n)) := by
  have hne : operator.toList ≠ [] := by
    intro h
    rw [h] at hrelation
    cases hrelation
  have hpieces : pieces env (a ++ op operator ++ b) = _ := ha.closed.pieces_binary hne
  refine ⟨(ha.closed.append (closed_op hne)).append hb.closed, ?_, ?_⟩
  · rw [hpieces, Level.read, comparison_relation hrelation ha.isRelation_eq_false
      hb.isRelation_eq_false ha.read hb.read]
    rfl
  · rw [hpieces]
    intro p hp
    rcases List.mem_append.1 hp with hp | hp
    · exact ha.comparison.tight p hp
    · rcases List.mem_cons.1 hp with rfl | hp
      · exact Level.isLooser_relation hrelation
      · exact hb.comparison.tight p hp

theorem and (ha : HasValue env .comparison a (.bool x)) (hb : HasValue env .comparison b (.bool y)) :
    HasValue env .conjunction (a ++ op "&&" ++ b) (.bool (x && y)) := by
  have hne : "&&".toList ≠ [] := by decide
  have hpieces : pieces env (a ++ op "&&" ++ b) = pieces env a ++ .and :: pieces env b :=
    ha.closed.pieces_binary hne
  refine ⟨(ha.closed.append (closed_op hne)).append hb.closed, ?_, ?_⟩
  · have hparts : ∀ part ∈ [pieces env a, pieces env b], Piece.and ∉ part := by
      simp only [List.mem_cons, List.not_mem_nil, or_false, forall_eq_or_imp, forall_eq]
      exact ⟨ha.and_not_mem, hb.and_not_mem⟩
    have hread : ∀ {code : Tokens} {z : Bool}, HasValue env .comparison code (.bool z) →
        Evaluation.comparison env (pieces env code) = some (.bool z) := fun h => h.read
    have hjoin : pieces env a ++ .and :: pieces env b =
        [Piece.and].intercalate [pieces env a, pieces env b] := by
      simp [List.intercalate_cons_cons]
    rw [hpieces, hjoin, Level.read, Evaluation.conjunction,
      joined_intercalate (List.cons_ne_nil _ _) hparts, List.mapM_cons, List.mapM_cons,
      List.mapM_nil, hread ha, hread hb]
    rfl
  · rw [hpieces]
    intro p hp
    rcases List.mem_append.1 hp with hp | hp
    · exact ha.conjunction.tight p hp
    · rcases List.mem_cons.1 hp with rfl | hp
      · rfl
      · exact hb.conjunction.tight p hp

/-! ### Operands -/

/-- Code without operators but signs and casts. -/
theorem of_pieces {ps : List Piece} (hclosed : Closed env code) (hpieces : pieces env code = ps)
    (hread : Evaluation.cast env ps = some v) (htight : ∀ p ∈ ps, Level.cast.isLooser p = false) :
    HasValue env .cast code v := by
  subst hpieces
  exact ⟨hclosed, hread, htight⟩

/-- A name that is no keyword has the value of the variable. -/
theorem word {name : String} (hvalue : env name = some v)
    (hname : name ≠ "true" ∧ name ≠ "false" ∧ name ≠ "as") :
    HasValue env .cast (word name) v := by
  have hpieces : pieces env (Template.word name) = [.name name] := by
    rw [Template.word, pieces_singleton, pieceOf, if_neg hname.1, if_neg hname.2.1]
  refine of_pieces (closed_singleton rfl) hpieces ?_ ?_
  · rw [cast_of_not_mem (by simpa using Ne.symm hname.2.2)]
    exact hvalue
  · simp

/-- A number, with its sign. -/
theorem intLiteral (hlo : -0x80000000 < n) (hhi : n < 0x80000000) :
    HasValue env .cast (intLiteral n) (.int n) := by
  have hn : n.natAbs < 0x80000000 := by omega
  have hminus : "-".toList ≠ [] := by decide
  have hliteral : Closed env (natLiteral n.natAbs) := closed_singleton rfl
  unfold Template.intLiteral
  split
  · have hpieces : pieces env (op "-" ++ natLiteral n.natAbs) =
        [.operator ['-'], .operand (some (.int n.natAbs))] := by
      rw [closed_op hminus, pieces_op hminus, pieces_natLiteral hn]
      rfl
    refine of_pieces ((closed_op hminus).append hliteral) hpieces ?_ ?_
    · rw [cast_of_not_mem (by simp), unary, unary, Option.bind_some, Value.neg?, Value.int32?,
        if_pos (by omega)]
      congr 2
      omega
    · simp
  · refine of_pieces hliteral (pieces_natLiteral hn) ?_ ?_
    · rw [cast_of_not_mem (by simp), unary]
      congr 2
      omega
    · simp

/-- A printable ASCII character as a number. -/
theorem charLiteral {c : Char} (hlo : 0x20 ≤ c.toNat) (hhi : c.toNat < 0x7f) :
    HasValue env .cast (literal (Text.quotedChar c) ++ words ["as", "i32"]) (.int c.toNat) := by
  have hchar : pieceOf env (.literal (Text.quotedChar c)) = .operand (some (.char c)) := by
    rw [pieceOf, Value.ofLiteral?, LiteralValue.ofSpelling_quotedChar hlo hhi]
  have hclosed : Closed env (literal (Text.quotedChar c)) := closed_singleton rfl
  have htype : Closed env (words ["as", "i32"]) :=
    (closed_singleton rfl : Closed env [.ident "as"]).append (closed_singleton rfl)
  have hpieces : pieces env (literal (Text.quotedChar c) ++ words ["as", "i32"]) =
      [.operand (some (.char c)), .name "as", .name "i32"] := by
    rw [hclosed, literal, pieces_singleton, hchar]
    rfl
  refine of_pieces (hclosed.append htype) hpieces rfl ?_
  simp

end HasValue

/-! ## Conditions -/

theorem evaluate_word_true : evaluate env (word "true") = some (.bool true) := rfl

theorem evaluate_word_false : evaluate env (word "false") = some (.bool false) := rfl

theorem join?_or {values : List Bool} (hne : values ≠ []) :
    Value.join? (fun a b => a || b) (values.map .bool) = some (.bool (values.any id)) := by
  induction values with
  | nil => exact (hne rfl).elim
  | cons a values ih =>
    cases values with
    | nil => simp [Value.join?]
    | cons b values =>
      rw [List.map_cons, List.map_cons, Value.join?, ← List.map_cons, ih (List.cons_ne_nil b values)]
      · rfl
      · exact nofun

/-- Conditions with `||` between them. -/
theorem evaluate_or {α : Type} {items : List α} {code : α → Tokens} {holds : α → Bool}
    (hne : items ≠ []) (h : ∀ x ∈ items, HasValue env .conjunction (code x) (.bool (holds x))) :
    evaluate env ((op "||").intercalate (items.map code)) = some (.bool (items.any holds)) := by
  have hclosed : ∀ c ∈ items.map code, Closed env c := by
    intro c hc
    obtain ⟨x, hx, rfl⟩ := List.mem_map.1 hc
    exact (h x hx).closed
  have hparts : ∀ part ∈ (items.map code).map (pieces env), Piece.or ∉ part := by
    intro part hpart
    obtain ⟨c, hc, rfl⟩ := List.mem_map.1 hpart
    obtain ⟨x, hx, rfl⟩ := List.mem_map.1 hc
    exact (h x hx).or_not_mem
  have hvalues : ((items.map code).map (pieces env)).mapM (conjunction env) =
      some ((items.map holds).map .bool) := by
    clear hne hclosed hparts
    induction items with
    | nil => rfl
    | cons x items ih =>
      have hx : conjunction env (pieces env (code x)) = some (.bool (holds x)) :=
        (h x List.mem_cons_self).read
      rw [List.map_cons, List.map_cons, List.mapM_cons, hx,
        ih fun y hy => h y (List.mem_cons_of_mem _ hy)]
      rfl
  have hnonempty : (items.map code).map (pieces env) ≠ [] := by simpa using hne
  calc evaluate env ((op "||").intercalate (items.map code))
      = disjunction env ([Piece.or].intercalate ((items.map code).map (pieces env))) := by
        rw [evaluate, pieces_intercalate (by decide) hclosed]
        rfl
    _ = Value.join? (fun a b => a || b) ((items.map holds).map .bool) := by
        rw [disjunction, joined_intercalate hnonempty hparts, hvalues]
        rfl
    _ = some (.bool (items.any holds)) := by
        rw [join?_or (by simpa using hne), List.any_map]
        rfl

/-- The opposite of a condition in parentheses. -/
theorem evaluate_not {body : Tokens} {x : Bool} (h : evaluate env body = some (.bool x)) :
    evaluate env (op "!" ++ parens body) = some (.bool !x) := by
  have hpieces : pieces env (op "!" ++ parens body) =
      [.operator ['!'], .operand (some (.bool x))] := by
    have hbody : pieceOf env (.group .parenthesis body) = .operand (some (.bool x)) := by
      rw [pieceOf, if_pos rfl]
      exact congrArg Piece.operand h
    rw [(closed_op (by decide)), pieces_op (by decide), parens, pieces_singleton, hbody]
    rfl
  rw [evaluate, hpieces, disjunction, joined_of_not_mem (by simp [Piece.or]), conjunction,
    joined_of_not_mem (by simp [Piece.and]),
    comparison_of_not_isRelation (by simp [Piece.isRelation, Piece.relation?]),
    cast_of_not_mem (by simp)]
  rfl

end PredictiveParser.Evaluation

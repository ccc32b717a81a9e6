import PredictiveParser.Proofs.Analysis.Leads
import PredictiveParser.Proofs.Analysis.Rule

/-!
# Analyzed rules are prepared

A rule is prepared for lowering once it was analyzed, if nothing in it was marked before
(`RuleAnalyzed.prepared`), and stays so when annotations of nodes and the text of checks change
(`Annotates.prepared`).
-/
namespace PredictiveParser

open Relation

namespace NodeKind

variable {kind : NodeKind}

theorem of_textless_alternatives {alts : Alternatives}
    (h : kind.textless = (alternatives alts).textless) : kind = alternatives alts := by
  cases kind <;> simp_all [textless]

end NodeKind

namespace Grammar

variable {g g' : Grammar} {body : NodeId}

/-- Nothing that the body matches is said to be tested by prediction. -/
def Unmarked (g : Grammar) (body : NodeId) : Prop :=
  ∀ id kind, g.MatchedBy body id → g.kindAt? id = some kind → kind.isMarked = false

/-- **Analysis prepares a rule.** -/
theorem RuleAnalyzed.prepared {la : Lookahead} {k : Nat} {quiet : Prop}
    (h : g.RuleAnalyzed la k body quiet g') (hrooted : g'.Rooted Node.matchedChildren body)
    (hclean : g.Unmarked body) :
    g'.Prepared body where
  rooted := hrooted
  predicted below alts tree hbelow hk htree := by
    obtain ⟨kind, hkind, hbare⟩ := h.shape.symm.kindAt? hk
    obtain ⟨prediction, rfl⟩ := NodeKind.of_bare_alternatives hbare
    obtain ⟨place, hoccurs, rfl⟩ := exists_occurs (h.shape.symm.matchedBy hbelow)
    obtain ⟨tree', ⟨warnings, hpred, -, -⟩, hk'⟩ := h.predicted place _ hoccurs hkind
    rw [hk, Option.some.injEq, NodeKind.alternatives.injEq] at hk'
    rw [hk', Option.some.injEq] at htree
    exact htree ▸ wellFormed_buildLevel hpred
  marks id kind hid hk hmarked := by
    have hid' := h.shape.symm.matchedBy hid
    obtain ⟨kind', hk', hbare⟩ := h.shape.symm.kindAt? hk
    have hother : ∀ alts, g.kindAt? id ≠ some (.alternatives alts) := by
      intro alts halts
      rw [hk'] at halts
      cases halts
      obtain ⟨prediction, rfl⟩ := NodeKind.of_bare_alternatives hbare.symm
      cases hmarked
    rcases h.marked id hother with hsame | ⟨set, hset, hlead⟩
    · have hunmarked := hclean id kind hid'
      unfold kindAt? at hk hunmarked
      rw [← hsame, hmarked] at hunmarked
      cases hunmarked hk
    · exact ⟨set, h.shape.matchedBy hset, hlead⟩

theorem SameShape.rooted (h : g.SameShape g') (hr : g.Rooted Node.matchedChildren body) :
    g'.Rooted Node.matchedChildren body where
  top parent hparent hlink := hr.top parent (h.symm.matchedBy hparent) (h.symm.link hlink)
  unique parent parent' child hparent hparent' hlink hlink' :=
    hr.unique parent parent' child (h.symm.matchedBy hparent) (h.symm.matchedBy hparent')
      (h.symm.link hlink) (h.symm.link hlink')
  nodup parent node hparent hnode := by
    obtain ⟨node', hnode', hbare⟩ := h.symm.node hnode
    rw [← Node.matchedChildren_of_bare hbare]
    exact hr.nodup parent node' (h.symm.matchedBy hparent) hnode'

theorem SameKinds.alternatives (h : g.SameKinds g') {id : NodeId} {alts : Alternatives}
    (hk : g.kindAt? id = some (.alternatives alts)) : g'.kindAt? id = some (.alternatives alts) := by
  obtain ⟨kind, hk', htext⟩ := h.kindAt? hk
  rw [hk', NodeKind.of_textless_alternatives htext]

theorem SameKinds.provenLead (h : g.SameKinds g') {set id : NodeId} (hp : g.ProvenLead set id) :
    g'.ProvenLead set id := by
  obtain ⟨alts, tree, index, arm, lead, hset, htree, harm, hstarts, hlead, hproven⟩ := hp
  obtain ⟨lead', hlead', hbare⟩ := h.sameShape.node hlead
  exact ⟨alts, tree, index, arm, lead', h.alternatives hset, htree, harm,
    h.sameShape.starts hstarts, hlead', (isProven_of_bare hbare).trans hproven⟩

/-- Annotations do not matter. -/
theorem Prepared.sameKinds (hg : g.Prepared body) (h : g.SameKinds g') : g'.Prepared body where
  rooted := h.sameShape.rooted hg.rooted
  predicted below alts tree hbelow hk :=
    hg.predicted below alts tree (h.sameShape.symm.matchedBy hbelow) (h.symm.alternatives hk)
  marks id kind hid hk hmarked := by
    obtain ⟨kind', hk', htext⟩ := h.symm.kindAt? hk
    rw [← NodeKind.isMarked_of_textless htext] at hmarked
    obtain ⟨set, hset, hlead⟩ := hg.marks id kind' (h.sameShape.symm.matchedBy hid) hk' hmarked
    exact ⟨set, h.sameShape.matchedBy hset, h.provenLead hlead⟩

end Grammar

end PredictiveParser

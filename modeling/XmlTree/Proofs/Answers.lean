/-
  Proofs/Answers.lean --- what queries answer about a document.

  WHAT THIS FILE IS FOR.  Whatever was done to a document, a query of nodes that refers to no
  variable answers nodes that are there, each of them once, with a tag that is true, and the
  first node that it answers is the first of them in document order.  A query may start at
  no node at all, at a tree node, or at an attribute that comes with its owner.
-/
import XmlTree.Proofs.Evaluation

set_option autoImplicit false

namespace XmlTree

namespace Document

variable {doc : Document} {lay : Layout}

/-- The first node of a sound set, and none of the empty set, where that is the only set
without one. -/
theorem Rooted.first_spec (h : Rooted doc lay) (htimely : Timely doc) {s : NodeSet}
    (hs : s.Sound doc) :
    (s.first doc.order = .null ↔ s.nodes = []) ∧
      (s.nodes ≠ [] → doc.ComesFirst (s.first doc.order) s.nodes) := by
  refine ⟨⟨fun hnull => ?_, NodeSet.first_eq_null⟩, h.comesFirst_first htimely hs⟩
  by_contra hne
  have hlive := hs.live _ (h.comesFirst_first htimely hs hne).mem
  rw [hnull] at hlive
  exact hlive

/-- Whatever was done to a document, a query of nodes without variables answers a sound set
and the first node of it. -/
theorem reachable_answers (hdoc : Reachable doc) {scope : Grammar.Scope} {text : String}
    (hrefs : scope = none ∨ (Query.compile scope text).refs = [])
    (htype : (Query.compile scope text).type = .nodeSet) (values : VariableStore)
    {start : QueryNode} (hstart : start = .null ∨ doc.Live start) :
    ∃ s n, (Query.compile scope text).nodeSet ⟨doc.order, values⟩ start = .ok s ∧
      (Query.compile scope text).node ⟨doc.order, values⟩ start = .ok n ∧
      s.Sound doc ∧ (n = .null ↔ s.nodes = []) ∧
      (s.nodes ≠ [] → doc.ComesFirst n s.nodes) := by
  obtain ⟨lay, hrooted⟩ := hdoc.whole
  have hfree : (Query.compile scope text).refs = [] := by
    rcases hrefs with rfl | hfree
    · exact Query.refs_compile_none text
    · exact hfree
  obtain ⟨e, houtcome⟩ : ∃ e, (Query.compile scope text).outcome = .ok e := by
    cases houtcome : (Query.compile scope text).outcome with
    | error fault => simp [Query.type, Query.expr?, houtcome] at htype
    | ok e => exact ⟨e, rfl⟩
  have hexpr : (Query.compile scope text).expr? = some e := by rw [Query.expr?, houtcome]
  have hetype : e.type = .nodeSet := by rwa [Query.type, hexpr] at htype
  have herefs : e.refs = [] := by rwa [Query.refs, hexpr] at hfree
  have hsound := hrooted.sound_eval hdoc.timely values e herefs (.only start) hstart
  have hnodes : (Query.compile scope text).nodeSet ⟨doc.order, values⟩ start =
      .ok (e.eval ⟨doc.order, values⟩ (.only start)).toNodeSet := by
    rw [Query.nodeSet, houtcome]
    exact if_pos hetype
  refine ⟨_, _, hnodes, ?_, hsound, hrooted.first_spec hdoc.timely hsound⟩
  rw [Query.node, hnodes]
  rfl

/-- From an attribute: the nodes above it and the attribute itself, and an element that is
found from the top. -/
theorem answers_shuffled :
    (Query.compile none "ancestor-or-self::node() | //d").type = .nodeSet ∧
      (new.applyAll shuffled).Live (.attribute ⟨⟨0, 1⟩⟩ ⟨⟨3, 1⟩⟩) ∧
      ∃ s n, (Query.compile none "ancestor-or-self::node() | //d").nodeSet
          ⟨(new.applyAll shuffled).order, .empty⟩ (.attribute ⟨⟨0, 1⟩⟩ ⟨⟨3, 1⟩⟩) = .ok s ∧
        (Query.compile none "ancestor-or-self::node() | //d").node
          ⟨(new.applyAll shuffled).order, .empty⟩ (.attribute ⟨⟨0, 1⟩⟩ ⟨⟨3, 1⟩⟩) = .ok n ∧
        s.Sound (new.applyAll shuffled) ∧ (n = .null ↔ s.nodes = []) ∧
        (s.nodes ≠ [] → (new.applyAll shuffled).ComesFirst n s.nodes) := by
  have htype : (Query.compile none "ancestor-or-self::node() | //d").type = .nodeSet := by
    decide +kernel
  have hlive : (new.applyAll shuffled).Live (.attribute ⟨⟨0, 1⟩⟩ ⟨⟨3, 1⟩⟩) := by
    change (new.applyAll shuffled).owner? ⟨⟨0, 1⟩⟩ = some ⟨⟨3, 1⟩⟩
    decide +kernel
  exact ⟨htype, hlive, reachable_answers (Reachable.new.applyAll (by decide)) (.inl rfl) htype
    .empty (.inr hlive)⟩

end Document

end XmlTree

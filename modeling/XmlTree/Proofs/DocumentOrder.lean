/-
  Proofs/DocumentOrder.lean --- comparing nodes is comparing their places in the tree.

  WHAT THIS FILE IS FOR.  Whatever was done to a document, its nodes compare as they come
  in the walk through the tree as it stands.  This is said for the comparison itself and
  for each of the two sources it takes keys from: the serial numbers, until nodes were put
  somewhere, and the ranks that are kept since then, whether made just now or before other
  nodes were removed and their slots used again.
-/
import XmlTree.Proofs.OrderLoading
import XmlTree.Proofs.TreeShape

set_option autoImplicit false

namespace XmlTree

namespace Document

variable {doc : Document} {lay : Layout}

/-- The nodes of a document come in the order of the walk through its tree, and so do they
by what the document knows about their order. -/
structure InDocumentOrder (doc : Document) : Prop where
  /-- the walk visits the document node, then everything below its first child, and so
  on, and each node once -/
  walk : ∃ o : Outline NodeId, o.top = doc.root ∧ o.Follows doc.children ∧
    doc.preorder = o.flatten
  nodup : doc.preorder.Nodup
  mem : ∀ x, x ∈ doc.preorder ↔ doc.contains x = true
  comparison : ∀ a b, doc.contains a = true → doc.contains b = true →
    doc.compareOrder a b = compare (doc.preorder.idxOf a) (doc.preorder.idxOf b)
  serials : doc.reordered = false → ∀ a b r s, doc.node? a = some r → doc.node? b = some s →
    compare r.serial s.serial =
      compare (doc.preorder.idxOf a) (doc.preorder.idxOf b)
  ranks : ∀ t, doc.knownRanks = some t → ∀ a b, doc.contains a = true →
    doc.contains b = true → ∃ m n, t.rank? a = some m ∧ t.rank? b = some n ∧
      compare m n = compare (doc.preorder.idxOf a) (doc.preorder.idxOf b)

/-! ## From what is known -/

/-- The keys that nodes are compared by. -/
theorem orderKey?_eq {ranks : Thunk Ranks} {x : NodeId} (hx : doc.contains x = true) :
    doc.orderKey? ranks x = if doc.reordered then ranks.get.rank? x else doc.serial? x := by
  obtain ⟨r, hr⟩ := contains_iff.1 hx
  rw [orderKey?, hr, serial?, hr]
  rfl

/-- Ranks that are taken for a comparison grow along the walk. -/
theorem Rooted.currentRanks_increasing (h : Rooted doc lay) (htimely : Timely doc) :
    Increasing doc.currentRanks.rank? doc.preorder := by
  unfold currentRanks
  cases hknown : doc.knownRanks with
  | none => exact h.ranks_increasing
  | some t => exact htimely.kept t hknown

/-- The keys that nodes are compared by grow along the walk. -/
theorem Rooted.orderKey?_increasing (h : Rooted doc lay) (htimely : Timely doc) :
    Increasing (doc.orderKey? (Thunk.mk fun _ => doc.currentRanks)) doc.preorder := by
  cases hreordered : doc.reordered with
  | true =>
    refine (h.currentRanks_increasing htimely).congr fun x hx => ?_
    rw [orderKey?_eq (h.mem_preorder.1 hx), hreordered]
    rfl
  | false =>
    refine (htimely.serials hreordered).1.congr fun x hx => ?_
    rw [orderKey?_eq (h.mem_preorder.1 hx), hreordered]
    rfl

theorem Rooted.compareOrder_eq (h : Rooted doc lay) (htimely : Timely doc) {a b : NodeId}
    (ha : doc.contains a = true) (hb : doc.contains b = true) :
    doc.compareOrder a b = compare (doc.preorder.idxOf a) (doc.preorder.idxOf b) := by
  have hamem := h.mem_preorder.2 ha
  have hbmem := h.mem_preorder.2 hb
  have hkeys : compareKeys (doc.orderKey? (Thunk.mk fun _ => doc.currentRanks) a)
      (doc.orderKey? (Thunk.mk fun _ => doc.currentRanks) b) =
        compare (doc.preorder.idxOf a) (doc.preorder.idxOf b) :=
    (h.orderKey?_increasing htimely).compareKeys_eq hamem hbmem
  unfold compareOrder
  split
  · rename_i heq
    rw [heq]
    simp
  · rename_i hne
    -- different nodes have different places, so slots are not compared
    have hplaces : compare (doc.preorder.idxOf a) (doc.preorder.idxOf b) ≠ .eq := by
      intro heq
      exact hne ((List.idxOf_inj hamem).1 (Nat.compare_eq_eq.1 heq))
    simp only [hkeys]
    cases hcompare : compare (doc.preorder.idxOf a) (doc.preorder.idxOf b) with
    | lt => rfl
    | gt => rfl
    | eq => exact absurd hcompare hplaces

theorem Rooted.inDocumentOrder (h : Rooted doc lay) (htimely : Timely doc) :
    InDocumentOrder doc where
  walk := by
    obtain ⟨o, htop, ho⟩ := h.forest.exists_outline doc.root
    exact ⟨o, htop, ho, h.preorder_eq_flatten ho htop⟩
  nodup := h.preorder_nodup
  mem _ := h.mem_preorder
  comparison _ _ ha hb := h.compareOrder_eq htimely ha hb
  serials hreordered a b r s hr hs := by
    have hkeys := (htimely.serials hreordered).1.compareKeys_eq
      (h.mem_preorder.2 (contains_iff.2 ⟨r, hr⟩)) (h.mem_preorder.2 (contains_iff.2 ⟨s, hs⟩))
    rw [serial?, hr, serial?, hs] at hkeys
    exact hkeys
  ranks t ht a b ha hb := by
    have hincreasing := htimely.kept t ht
    obtain ⟨m, hm⟩ := Option.isSome_iff_exists.1 (hincreasing.isSome a (h.mem_preorder.2 ha))
    obtain ⟨n, hn⟩ := Option.isSome_iff_exists.1 (hincreasing.isSome b (h.mem_preorder.2 hb))
    have hkeys := hincreasing.compareKeys_eq (h.mem_preorder.2 ha) (h.mem_preorder.2 hb)
    rw [hm, hn] at hkeys
    exact ⟨m, n, hm, hn, hkeys⟩

/-! ## Whatever is done -/

/-- No change spoils what is known about the order of nodes. -/
theorem Timely.apply (h : Timely doc) (hwhole : Whole doc) (c : Change) :
    Timely (doc.apply c).2 := by
  cases c with
  | loadString text options => exact .loadReset doc text options
  | loadBytes bytes options encoding => exact .loadReset doc _ options
  | loadFetched fetched options encoding => exact .loadFetched doc fetched options encoding
  | appendBytes parent bytes options encoding =>
    exact h.appendBytes hwhole parent bytes options encoding
  | reset => exact .reset doc
  | resetFrom source => exact (Timely.reset doc).copyTops _
  | insertChild parent kind place => exact h.insertChild parent kind place
  | insertElement parent name place => exact h.insertElement hwhole parent name place
  | insertCopy parent proto place => exact h.insertTree parent _ _ place
  | insertCopyFrom parent source proto place => exact h.insertTree parent _ _ place
  | insertMove parent moved place => exact h.insertMove parent moved place
  | removeChild parent child => exact h.removeChild hwhole parent child
  | removeChildNamed parent name => exact h.removeChildNamed hwhole parent name
  | removeChildren parent => exact h.removeChildren hwhole parent
  | insertAttribute owner name value place => exact h.insertAttribute owner name value place
  | setAttribute owner name value => exact h.setAttribute owner name value
  | insertAttributeCopy owner proto place => exact h.insertAttributeCopy owner proto place
  | removeAttribute owner attr => exact h.removeAttribute owner attr
  | removeAttributeNamed owner name => exact h.removeAttributeNamed owner name
  | removeAttributes owner => exact h.removeAttributes owner
  | setName id name => exact h.sameShape (.setName id name)
  | setValue id value => exact h.sameShape (.setValue id value)
  | setContent id text => exact h.setContent id text
  | setAttrName id name => exact h.sameShape (.setAttrName id name)
  | setAttrValue id value => exact h.sameShape (.setAttrValue id value)

theorem Reachable.timely (h : Reachable doc) : Timely doc := by
  induction h with
  | new => exact .new
  | change c before _ ih _ => exact ih.apply before.whole c
  | ranked before ih => exact ih.withRanks before.whole

/-- Whatever is done to a document, its nodes compare as they come in the walk through its
tree. -/
theorem reachable_inDocumentOrder (h : Reachable doc) : InDocumentOrder doc := by
  obtain ⟨lay, hrooted⟩ := h.whole
  exact hrooted.inDocumentOrder h.timely

/-- Ranks are made, then a child is dropped and another one renamed: the kept ranks are
used still. -/
theorem inDocumentOrder_shuffled :
    ((new.applyAll shuffled).withRanks.applyAll
        [.removeChild ⟨⟨1, 1⟩⟩ ⟨⟨3, 1⟩⟩, .setName ⟨⟨2, 2⟩⟩ "e"]).knownRanks.isSome = true ∧
      InDocumentOrder ((new.applyAll shuffled).withRanks.applyAll
        [.removeChild ⟨⟨1, 1⟩⟩ ⟨⟨3, 1⟩⟩, .setName ⟨⟨2, 2⟩⟩ "e"]) :=
  ⟨by decide +kernel, reachable_inDocumentOrder
    ((Reachable.new.applyAll (by decide)).ranked.applyAll (by decide))⟩

end Document

end XmlTree

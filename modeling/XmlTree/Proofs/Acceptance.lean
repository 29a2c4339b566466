/-
  Proofs/Acceptance.lean --- exactly the texts that are content are loaded.

  WHAT THIS FILE IS FOR.  Whatever the grammar gives is read without a fault, and whatever
  is read without a fault is given by the grammar.  Together: a text is loaded as a fragment
  if and only if it is content, and then the document holds what its constructs say, in
  their order and nothing else.

  WHAT IS LEFT OUT of the grammar are document types, so the texts here hold none.
-/
import XmlTree.Proofs.Derivation
import XmlTree.Proofs.Recognition

set_option autoImplicit false

namespace XmlTree

/-- Options that make a node of every construct, also at the top, but not of white space. -/
def ParseOptions.pieces : ParseOptions := full.union fragment

namespace Document

variable {text : String}

/-- A text that is loaded was read to its end, and nothing of it was refused. -/
theorem read_of_ok {options : ParseOptions} (into : Document)
    (hok : (into.loadString text options).1.status = .ok) :
    let read := Transcript.ofText ⟨options, true⟩ text.toList
    read.fault = none ∧
      ((into.loadStarted text).heeded (into.loadTarget text options) read.events).1 = none := by
  intro read
  have hloaded := loadBelow_reset into text.toList options
  rw [String.ofList_toList] at hloaded
  have hstatus : (into.reset.loadBelow into.reset.root text options).1.status = .ok := hok
  rw [hloaded] at hstatus
  cases hdone : ((into.loadStarted text).carriedOut (into.loadTarget text options) read).fault with
  | none =>
    obtain ⟨hheeded, hfault⟩ := Transcript.of_heeded_fault hdone
    exact ⟨hfault, hheeded⟩
  | some fault =>
    simp only [read, hdone] at hstatus
    -- neither a refusal nor a fault of the reader has this status
    cases hheeded : ((into.loadStarted text).heeded (into.loadTarget text options)
        read.events).1 with
    | some refusal =>
      rw [TreeBuilder.carriedOut, Transcript.heeded, show (LoadEvent.heeded _ _ _ _).1 = _
        from hheeded] at hdone
      cases hdone
      rw [TreeBuilder.status_of_heeded hheeded] at hstatus
      cases hstatus
    | none =>
      rw [TreeBuilder.carriedOut, Transcript.heeded_eq_self hheeded] at hdone
      exact absurd hstatus (Reader.status_of_readAll hdone)

/-- A text that is loaded is a manuscript. -/
theorem exists_manuscript_of_ok {options : ParseOptions} (hmarkup : options.KeepsMarkup)
    (into : Document) (hok : (into.loadString text options).1.status = .ok) :
    ∃ m : Manuscript, m.SpelledBy true text.toList := by
  have howed : Reader.Owed true [] text.toList :=
    Reader.owed_of_readAll (c := .ofText text.toList) hmarkup (read_of_ok into hok).1
  cases howed with
  | done hspelled => exact ⟨_, hspelled⟩

/-- A manuscript is loaded as its trees, if the options take what is there. -/
theorem loadString_of_manuscript {options : ParseOptions} (hmarkup : options.KeepsMarkup)
    (htexts : options.KeepsTextApart) (hsize : text.utf8ByteSize < 2 ^ 32) (into : Document)
    {m : Manuscript} (h : m.SpelledBy true text.toList) :
    let loaded := into.loadString text options
    (loaded.1.status = .ok ↔
        options.accepts text.toList ((m.trees options).map fun t => t.label.kind) = true) ∧
      Whole loaded.2 ∧ (loaded.2.tree loaded.2.root).exact =
        (Tree.node bareRoot (m.trees options)).exact := by
  intro loaded
  obtain ⟨doc, hbelow, hwhole, htree⟩ :=
    loadBelow_of_manuscript into hmarkup htexts h (by rwa [byteSize_toList])
  rw [String.ofList_toList] at hbelow
  have hdoc : loaded.2 = doc := by
    show (into.loadString text options).2 = doc
    rw [loadString]
    simp only [hbelow]
  refine ⟨?_, hdoc ▸ hwhole, hdoc ▸ htree⟩
  show (into.loadString text options).1.status = .ok ↔ _
  rw [loadString]
  simp only [hbelow]
  split
  · rename_i haccepts
    exact iff_of_true rfl haccepts
  · rename_i haccepts
    exact iff_of_false nofun haccepts

/-- A text without a document type is loaded as a fragment if and only if it is content, and
then the document holds the trees of its constructs. -/
theorem loadString_pieces (hsize : text.utf8ByteSize < 2 ^ 32)
    (hdoctype : ¬ "<!DOCTYPE".toList <:+: text.toList) (into : Document) :
    let loaded := into.loadString text .pieces
    (loaded.1.status = .ok ↔ ∃ items, Content true items text.toList) ∧
      ∀ items, Content true items text.toList →
        (loaded.2.tree loaded.2.root).plain = (Tree.node bareRoot
          (Construct.allTrees .pieces true (Construct.allJoined items))).plain := by
  intro loaded
  have hmarkup : ParseOptions.pieces.KeepsMarkup := by decide
  have hloaded : ∀ {items}, Content true items text.toList → loaded.1.status = .ok ∧
      (loaded.2.tree loaded.2.root).plain = (Tree.node bareRoot
        (Construct.allTrees .pieces true (Construct.allJoined items))).plain := by
    intro items hcontent
    obtain ⟨doc, hbelow, -, htree⟩ := loadBelow_of_content into hmarkup (by decide) hcontent
      (by rwa [byteSize_toList]) (ParseOptions.accepts_of_fragment (by decide))
    have htree := Tree.plain_eq_of_exact_eq htree
    rw [String.ofList_toList] at hbelow
    have heq : loaded = (⟨.ok, 0, .utf8⟩, doc) := by
      show into.loadString text .pieces = _
      rw [loadString]
      simp only [hbelow]
    rw [heq]
    exact ⟨rfl, htree⟩
  refine ⟨⟨fun hok => ?_, ?_⟩, fun _ hcontent => (hloaded hcontent).2⟩
  · obtain ⟨m, hspelled⟩ := exists_manuscript_of_ok hmarkup into hok
    exact hspelled.exists_content hdoctype
  · rintro ⟨items, hcontent⟩
    exact (hloaded hcontent).1

/-- A declaration and an element, in a spelling that a writer would not choose. -/
def sketch : List Construct :=
  [.declaration "XML" [], .element "a" [⟨"k", ['v', '"']⟩]
    [.run ['x'], .run ['y'], .element "b" [] [], .run [' '], .pi "go" (some ['?'])]]

theorem content_sketch :
    Content true sketch "<?XML?><a k = 'v\"'>xy<b/> <?go ??></a >".toList := by
  have hnames : IsName "XML" ∧ IsName "a" ∧ IsName "k" ∧ IsName "b" ∧ IsName "go" := by
    decide +kernel
  obtain ⟨hxml, ha, hk, hb, hgo⟩ := hnames
  have hnone : Blank [] := List.forall_mem_nil _
  have hspace : Blank [' '] := List.forall_mem_singleton.2 rfl
  have hvalue := RawAttribute.SpelledBy.mk hk hspace hspace (.inr rfl)
    (show '\'' ∉ ['v', '"'] by decide +kernel)
  have hattributes := AttributesSpelledBy.cons hspace (List.cons_ne_nil _ _) hvalue (.nil hnone)
  have hrun : ∀ c, '<' ∉ [c] → (Construct.run [c]).LeafSpelledBy false [c] := fun c hc =>
    .run (List.cons_ne_nil c []) hc
  have hinstruction : (Construct.pi "go" (some ['?'])).LeafSpelledBy false _ :=
    .pi hgo rfl hspace (List.cons_ne_nil _ _) rfl (by decide +kernel)
  have hinner := Content.leaf (hrun 'x' (by decide +kernel)) (.leaf (hrun 'y' (by decide +kernel))
    (.leaf (.empty hb (.nil hnone)) (.leaf (hrun ' ' (by decide +kernel))
      (.leaf hinstruction .nil))))
  have hspelled := Content.leaf (.declaration rfl hxml rfl (.nil hnone))
    (Content.element ha hattributes hinner hspace .nil)
  refine cast (congrArg (Content true sketch) ?_) hspelled
  decide +kernel

theorem loadString_sketch :
    let text := "<?XML?><a k = 'v\"'>xy<b/> <?go ??></a >"
    let loaded := new.loadString text .pieces
    loaded.1.status = .ok ∧ (loaded.2.tree loaded.2.root).plain = (Tree.node bareRoot
      [.node ⟨.declaration, some "XML", none, []⟩ [],
        .node ⟨.element, some "a", none, [⟨some "k", some "v\""⟩]⟩
          [.node ⟨.pcdata, none, some "xy", []⟩ [], .node ⟨.element, some "b", none, []⟩ [],
            .node ⟨.pi, some "go", some "?", []⟩ []]]).plain := by
  intro text loaded
  have hsize : text.utf8ByteSize < 2 ^ 32 := by decide +kernel
  have hdoctype : ¬ "<!DOCTYPE".toList <:+: text.toList := by decide +kernel
  obtain ⟨hok, htree⟩ := loadString_pieces hsize hdoctype new
  exact ⟨hok.2 ⟨sketch, content_sketch⟩, (htree sketch content_sketch).trans rfl⟩

end Document

end XmlTree

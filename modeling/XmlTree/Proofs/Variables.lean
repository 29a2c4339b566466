/-
  Proofs/Variables.lean --- a variable never changes its type.

  WHAT THIS FILE IS FOR.  A variable is used through the set that names it, through a handle
  that was taken from a set, and through the expressions that were read with it.  Sets are
  made, added to and copied while all this goes on.  Whatever is done, and whether it is
  accepted or not, each cell keeps the type of its value, and every variable of every set has
  a cell whose value has the type of the variable.

  STEPS.  There is one lemma for each thing that can be done to a store, then one for each
  thing that can be done to a set, and from them the step lemma of the whole.
-/
import XmlTree.Query.Variables

set_option autoImplicit false

namespace XmlTree

/-! ## Cells -/

namespace VariableStore

/-- There is a cell for a variable, and its value has the type of the variable. -/
def Holds (store : VariableStore) (ref : VariableRef) : Prop :=
  ∃ v, store.cells[ref.cell]? = some v ∧ v.type = ref.type

/-- All cells are still there, and their values have the same types. -/
def KeepsTypes (store store' : VariableStore) : Prop :=
  ∀ (i : Nat) (v : Value), store.cells[i]? = some v →
    ∃ v', store'.cells[i]? = some v' ∧ v'.type = v.type

variable {store store' store'' : VariableStore} {ref : VariableRef} {value : Value}

theorem KeepsTypes.refl (store : VariableStore) : store.KeepsTypes store :=
  fun _ v hv => ⟨v, hv, rfl⟩

theorem KeepsTypes.trans (h : store.KeepsTypes store') (h' : store'.KeepsTypes store'') :
    store.KeepsTypes store'' := by
  intro i v hv
  obtain ⟨v', hv', htype⟩ := h i v hv
  obtain ⟨v'', hv'', htype'⟩ := h' i v' hv'
  exact ⟨v'', hv'', htype'.trans htype⟩

theorem Holds.mono (hkeeps : store.KeepsTypes store') (h : store.Holds ref) :
    store'.Holds ref := by
  obtain ⟨v, hv, htype⟩ := h
  obtain ⟨v', hv', htype'⟩ := hkeeps ref.cell v hv
  exact ⟨v', hv', htype'.trans htype⟩

theorem Holds.type_value (h : store.Holds ref) : (store.value ref).type = ref.type := by
  obtain ⟨v, hv, htype⟩ := h
  rw [value, Array.getD_eq_getD_getElem?, hv]
  exact htype

theorem keepsTypes_alloc (store : VariableStore) (value : Value) :
    store.KeepsTypes (store.alloc value).2 := by
  intro i v hv
  have hsize : i < store.cells.size := (Array.getElem?_eq_some_iff.1 hv).1
  refine ⟨v, ?_, rfl⟩
  rw [alloc, Array.getElem?_push, if_neg (Nat.ne_of_lt hsize)]
  exact hv

theorem getElem?_alloc (store : VariableStore) (value : Value) :
    (store.alloc value).2.cells[(store.alloc value).1]? = some value :=
  Array.getElem?_push_size

/-- A value is accepted exactly if it has the type of the variable. -/
theorem assign_fst_eq_true_iff (h : store.Holds ref) :
    (store.assign ref value).1 = true ↔ value.type = ref.type := by
  rw [assign, h.type_value]
  split
  · rename_i htype
    exact ⟨fun _ => htype.symm, fun _ => rfl⟩
  · rename_i htype
    exact ⟨nofun, fun h => absurd h.symm htype⟩

/-- A value of another type leaves all values as they were. -/
theorem assign_of_type_ne (h : store.Holds ref) (htype : value.type ≠ ref.type) :
    store.assign ref value = (false, store) := by
  rw [assign, if_neg]
  exact fun heq => htype (heq.symm.trans h.type_value)

/-- A value of the right type is what the variable holds from then on. -/
theorem value_assign (h : store.Holds ref) (htype : value.type = ref.type) :
    (store.assign ref value).2.value ref = value := by
  have hsame : (store.value ref).type = value.type := h.type_value.trans htype.symm
  obtain ⟨v, hv, -⟩ := h
  rw [assign, if_pos hsame, VariableStore.value, Array.getD_eq_getD_getElem?,
    Array.getElem?_modify, if_pos rfl, hv]
  rfl

/-- No other cell changes. -/
theorem getElem?_assign_of_ne {i : Nat} (hne : i ≠ ref.cell) :
    (store.assign ref value).2.cells[i]? = store.cells[i]? := by
  rw [assign]
  split
  · rw [Array.getElem?_modify, if_neg (Ne.symm hne)]
  · rfl

theorem keepsTypes_assign (h : store.Holds ref) (value : Value) :
    store.KeepsTypes (store.assign ref value).2 := by
  intro i v hv
  by_cases hcell : i = ref.cell
  · subst hcell
    have htype : v.type = ref.type := by
      obtain ⟨w, hw, htype⟩ := h
      rw [hv] at hw
      cases hw
      exact htype
    by_cases hvalue : value.type = ref.type
    · have hsame : (store.value ref).type = value.type := h.type_value.trans hvalue.symm
      refine ⟨value, ?_, hvalue.trans htype.symm⟩
      rw [assign, if_pos hsame, Array.getElem?_modify, if_pos rfl, hv]
      rfl
    · rw [assign_of_type_ne h hvalue]
      exact ⟨v, hv, rfl⟩
  · rw [getElem?_assign_of_ne hcell]
    exact ⟨v, hv, rfl⟩

end VariableStore

/-! ## Sets -/

namespace VariableSet

/-- Every variable of a set is held. -/
def Holds (set : VariableSet) (store : VariableStore) : Prop :=
  ∀ ref ∈ set.refs, store.Holds ref

variable {set : VariableSet} {store store' : VariableStore} {name : String} {type : ValueType}

theorem Holds.mono (hkeeps : store.KeepsTypes store') (h : set.Holds store) :
    set.Holds store' :=
  fun ref href => (h ref href).mono hkeeps

/-- What adding or assigning may do to a set and its store: variables are added, and all
of them are held. -/
structure Grows (set : VariableSet) (store : VariableStore) (set' : VariableSet)
    (store' : VariableStore) : Prop where
  refs : set.refs ⊆ set'.refs
  keeps : store.KeepsTypes store'
  holds : set'.Holds store'

theorem Grows.refl (h : set.Holds store) : set.Grows store set store :=
  ⟨List.Subset.refl _, .refl store, h⟩

theorem grows_add (h : set.Holds store) (name : String) (type : ValueType) :
    set.Grows store (set.add store name type).2.1 (set.add store name type).2.2 := by
  rw [add]
  split
  · exact .refl h
  · rename_i hname
    have htype : type ≠ .none := fun heq => hname (by simp [heq])
    split
    · exact .refl h
    · have hkeeps := store.keepsTypes_alloc (.initial type)
      refine ⟨List.subset_append_left _ _, hkeeps, fun ref href => ?_⟩
      rcases List.mem_append.1 href with hold | hnew
      · exact (h ref hold).mono hkeeps
      · obtain rfl := List.mem_singleton.1 hnew
        exact ⟨.initial type, store.getElem?_alloc (.initial type), Value.type_initial htype⟩

/-- The variable that adding answers is one of the set, and it has the type asked for. -/
theorem mem_of_add {ref : VariableRef} (hadd : (set.add store name type).1 = some ref) :
    ref ∈ (set.add store name type).2.1.refs ∧ ref.type = type := by
  revert hadd
  rw [add]
  split
  · exact nofun
  · split
    · rename_i found hfound
      split
      · rename_i htype
        intro hadd
        cases hadd
        exact ⟨List.mem_of_find?_eq_some hfound, htype⟩
      · exact nofun
    · intro hadd
      cases hadd
      exact ⟨List.mem_append_right _ (List.mem_singleton.2 rfl), rfl⟩

theorem grows_assign (h : set.Holds store) (name : String) (value : Value) :
    set.Grows store (set.assign store name value).2.1 (set.assign store name value).2.2 := by
  have hgrows := grows_add h name value.type
  rw [assign]
  split
  · rename_i ref set' store' hadd
    obtain ⟨href, -⟩ := mem_of_add (congrArg Prod.fst hadd)
    rw [hadd] at hgrows href
    have hkeeps := VariableStore.keepsTypes_assign (hgrows.holds ref href) value
    exact ⟨hgrows.refs, hgrows.keeps.trans hkeeps, hgrows.holds.mono hkeeps⟩
  · rename_i set' store' hadd
    rw [hadd] at hgrows
    exact hgrows

/-- A value of another type than the variable of its name is refused, and nothing
changes. -/
theorem assign_of_type_ne {ref : VariableRef} {value : Value}
    (hfind : set.find? name = some ref) (htype : value.type ≠ ref.type) :
    set.assign store name value = (false, set, store) := by
  have hadd : set.add store name value.type = (none, set, store) := by
    rw [add]
    split
    · rfl
    · rw [hfind]
      exact Prod.ext (if_neg (Ne.symm htype)) rfl
  rw [assign, hadd]

/-- The next variable of a copy, in a new cell. -/
def copyVariable : VariableSet × VariableStore → VariableRef → VariableSet × VariableStore
  | (copy, store), ref =>
    let (cell, store) := store.alloc (store.value ref)
    (⟨copy.refs ++ [{ ref with cell }]⟩, store)

theorem clone_eq (set : VariableSet) (store : VariableStore) :
    set.clone store = set.refs.foldl copyVariable (empty, store) := rfl

/-- The variables copied so far are held, and so is everything that was. -/
theorem holds_foldl_copyVariable {refs : List VariableRef} {copy : VariableSet}
    (hrefs : ∀ ref ∈ refs, store.Holds ref) (hcopy : copy.Holds store) :
    store.KeepsTypes (refs.foldl copyVariable (copy, store)).2 ∧
      (refs.foldl copyVariable (copy, store)).1.Holds
        (refs.foldl copyVariable (copy, store)).2 := by
  induction refs generalizing copy store with
  | nil => exact ⟨.refl store, hcopy⟩
  | cons ref refs ih =>
    rw [List.forall_mem_cons] at hrefs
    have halloc := store.keepsTypes_alloc (store.value ref)
    have hcopy' : (copyVariable (copy, store) ref).1.Holds (copyVariable (copy, store) ref).2 := by
      intro r hr
      rcases List.mem_append.1 hr with hold | hnew
      · exact (hcopy r hold).mono halloc
      · obtain rfl := List.mem_singleton.1 hnew
        exact ⟨store.value ref, store.getElem?_alloc (store.value ref), hrefs.1.type_value⟩
    obtain ⟨hkeeps, hholds⟩ := ih (fun r hr => (hrefs.2 r hr).mono halloc) hcopy'
    exact ⟨halloc.trans hkeeps, hholds⟩

/-- A copy has variables of its own, which are held. -/
theorem holds_clone (h : set.Holds store) :
    store.KeepsTypes (set.clone store).2 ∧ (set.clone store).1.Holds (set.clone store).2 := by
  rw [clone_eq]
  exact holds_foldl_copyVariable h nofun

end VariableSet

/-! ## Everything that can be done -/

/-- Sets of variables, and the values of all their variables. -/
structure VariableSpace where
  store : VariableStore
  sets : List VariableSet
  deriving Inhabited

/-- Something that is done with variables.  A set is given by its number. -/
inductive VariableChange where
  /-- a new set without variables -/
  | newSet
  | add (set : Nat) (name : String) (type : ValueType)
  /-- a variable is given a value through a set, by its name -/
  | assign (set : Nat) (name : String) (value : Value)
  /-- a variable is given a value through a handle -/
  | assignTo (ref : VariableRef) (value : Value)
  /-- a copy of a set -/
  | clone (set : Nat)

namespace VariableSpace

/-- No sets and no variables. -/
def start : VariableSpace := ⟨.empty, []⟩

/-- Whether a handle is one of a variable of a set. -/
def Issued (w : VariableSpace) (ref : VariableRef) : Prop := ∃ set ∈ w.sets, ref ∈ set.refs

instance (w : VariableSpace) (ref : VariableRef) : Decidable (w.Issued ref) :=
  inferInstanceAs (Decidable (∃ set ∈ w.sets, ref ∈ set.refs))

/-- What is accepted or refused, and what comes of it.  What has no set, or comes from
no set, is nothing that can be done. -/
def apply (w : VariableSpace) : VariableChange → Bool × VariableSpace
  | .newSet => (true, ⟨w.store, w.sets ++ [.empty]⟩)
  | .add k name type =>
    match w.sets[k]? with
    | some set =>
      let (ref, set, store) := set.add w.store name type
      (ref.isSome, ⟨store, w.sets.set k set⟩)
    | none => (false, w)
  | .assign k name value =>
    match w.sets[k]? with
    | some set =>
      let (accepted, set, store) := set.assign w.store name value
      (accepted, ⟨store, w.sets.set k set⟩)
    | none => (false, w)
  | .assignTo ref value =>
    if w.Issued ref then
      let (accepted, store) := w.store.assign ref value
      (accepted, ⟨store, w.sets⟩)
    else
      (false, w)
  | .clone k =>
    match w.sets[k]? with
    | some set =>
      let (copy, store) := set.clone w.store
      (true, ⟨store, w.sets ++ [copy]⟩)
    | none => (false, w)

/-- Several things done one after the other. -/
def applyAll (w : VariableSpace) (changes : List VariableChange) : VariableSpace :=
  changes.foldl (fun w c => (w.apply c).2) w

/-- Every variable of every set is held. -/
def Sound (w : VariableSpace) : Prop := ∀ set ∈ w.sets, set.Holds w.store

/-- What anything done with variables leaves: handles stay handles, and types stay. -/
structure Later (w w' : VariableSpace) : Prop where
  issued : ∀ ref, w.Issued ref → w'.Issued ref
  keeps : w.store.KeepsTypes w'.store
  sound : w'.Sound

variable {w w' w'' : VariableSpace} {ref : VariableRef}

theorem Sound.holds (h : w.Sound) (href : w.Issued ref) : w.store.Holds ref := by
  obtain ⟨set, hset, href⟩ := href
  exact h set hset ref href

theorem Later.refl (h : w.Sound) : w.Later w := ⟨fun _ href => href, .refl w.store, h⟩

theorem Later.trans (h : w.Later w') (h' : w'.Later w'') : w.Later w'' :=
  ⟨fun ref href => h'.issued ref (h.issued ref href), h.keeps.trans h'.keeps, h'.sound⟩

/-- One more set. -/
theorem Later.append {store : VariableStore} {set : VariableSet} (h : w.Sound)
    (hkeeps : w.store.KeepsTypes store) (hset : set.Holds store) :
    w.Later ⟨store, w.sets ++ [set]⟩ := by
  refine ⟨?_, hkeeps, ?_⟩
  · rintro ref ⟨old, hold, href⟩
    exact ⟨old, List.mem_append_left _ hold, href⟩
  · intro s hs
    rcases List.mem_append.1 hs with hold | hnew
    · exact (h s hold).mono hkeeps
    · obtain rfl := List.mem_singleton.1 hnew
      exact hset

/-- A set that has grown. -/
theorem Later.set {k : Nat} {set set' : VariableSet} {store : VariableStore} (h : w.Sound)
    (hk : w.sets[k]? = some set) (hgrows : set.Grows w.store set' store) :
    w.Later ⟨store, w.sets.set k set'⟩ := by
  refine ⟨?_, hgrows.keeps, ?_⟩
  · rintro ref ⟨old, hold, href⟩
    obtain ⟨i, hi⟩ := List.mem_iff_getElem?.1 hold
    by_cases hik : i = k
    · subst hik
      rw [hi] at hk
      cases hk
      have hsize : i < w.sets.length := (List.getElem?_eq_some_iff.1 hi).1
      exact ⟨set', List.mem_set hsize _, hgrows.refs href⟩
    · refine ⟨old, List.mem_iff_getElem?.2 ⟨i, ?_⟩, href⟩
      rw [List.getElem?_set_ne (Ne.symm hik)]
      exact hi
  · intro s hs
    rcases List.mem_or_eq_of_mem_set hs with hold | rfl
    · exact (h s hold).mono hgrows.keeps
    · exact hgrows.holds

/-- One step. -/
theorem later_apply (h : w.Sound) (c : VariableChange) : w.Later (w.apply c).2 := by
  cases c with
  | newSet => exact .append h (.refl w.store) nofun
  | add k name type =>
    rw [apply]
    split
    · rename_i set hk
      exact .set h hk (VariableSet.grows_add (h set (List.mem_of_getElem? hk)) name type)
    · exact .refl h
  | assign k name value =>
    rw [apply]
    split
    · rename_i set hk
      exact .set h hk (VariableSet.grows_assign (h set (List.mem_of_getElem? hk)) name value)
    · exact .refl h
  | assignTo ref value =>
    rw [apply]
    split
    · rename_i href
      have hkeeps := VariableStore.keepsTypes_assign (h.holds href) value
      exact ⟨fun _ href => href, hkeeps, fun s hs => (h s hs).mono hkeeps⟩
    · exact .refl h
  | clone k =>
    rw [apply]
    split
    · rename_i set hk
      obtain ⟨hkeeps, hcopy⟩ := VariableSet.holds_clone (h set (List.mem_of_getElem? hk))
      exact .append h hkeeps hcopy
    · exact .refl h

/-- A whole run. -/
theorem later_applyAll (h : w.Sound) (changes : List VariableChange) :
    w.Later (w.applyAll changes) := by
  induction changes generalizing w with
  | nil => exact .refl h
  | cons c changes ih =>
    have hstep := later_apply h c
    exact hstep.trans (ih hstep.sound)

theorem sound_start : start.Sound := nofun

end VariableSpace

end XmlTree

/-
  Proofs/Caching.lean --- a cache of queries, told by the texts that were asked for.

  WHAT THIS FILE IS FOR.  A cache asks its store and compiles what the store does not hold.
  For every store that keeps what was used last, the answers of the cache are told by the
  texts that were asked for alone: each answer is the query that compiling the text gives, and
  it is an earlier answer exactly when the text is among the texts asked for last.

  THE STORE.  `KeepsRecent` is what such a store promises.  A query that is found moves to the
  front, a new one is put in front, and the last one is dropped when there is no room.

  THE HISTORY.  Texts are remembered since the store was last emptied, each where it was asked
  for last.  The invariant says that the store holds the first of them, with the answers that
  were given to them.
-/
import XmlTree.Query.Cache
import Mathlib.Data.List.Nodup
import Mathlib.Data.List.Induction

set_option autoImplicit false

namespace XmlTree

/-! ## Distinct members -/

section Distinct

variable {α : Type} [DecidableEq α] {a : α} {l : List α}

/-- Fewer members are left behind the first one when those like it are taken out. -/
theorem length_others_lt (a : α) (as : List α) :
    (as.filter fun b => !b == a).length < (a :: as).length := by
  rw [List.length_cons]
  exact Nat.lt_succ_of_le (List.length_filter_le _ _)

/-- Members that are left out do not matter to the others. -/
theorem eraseDups_filter (p : α → Bool) (l : List α) :
    (l.filter p).eraseDups = l.eraseDups.filter p := by
  induction hn : l.length using Nat.strongRecOn generalizing l with
  | ind n ih =>
    cases l with
    | nil => rfl
    | cons a as =>
      have hrest := ih _ (hn ▸ length_others_lt a as) (as.filter fun b => !b == a) rfl
      rw [List.eraseDups_cons, List.filter_cons, List.filter_cons, ← hrest]
      by_cases ha : p a = true
      · rw [if_pos ha, if_pos ha, List.eraseDups_cons, List.filter_comm]
      · have hsame : (as.filter fun b => !b == a).filter p = as.filter p := by
          rw [List.filter_filter]
          refine List.filter_congr fun b _ => ?_
          by_cases hb : b = a
          · simp [hb, ha]
          · simp [hb]
        rw [if_neg ha, if_neg ha, hsame]

theorem nodup_eraseDups (l : List α) : l.eraseDups.Nodup := by
  induction hn : l.length using Nat.strongRecOn generalizing l with
  | ind n ih =>
    cases l with
    | nil => exact List.nodup_nil
    | cons a as =>
      rw [List.eraseDups_cons, List.nodup_cons]
      exact ⟨by simp, ih _ (hn ▸ length_others_lt a as) _ rfl⟩

/-- Taking out a member that is not among the first ones leaves these as they are. -/
theorem take_filter_of_not_mem {n : Nat} (ha : a ∉ l.take n) :
    (l.filter (· ≠ a)).take n = l.take n := by
  induction l generalizing n with
  | nil => rfl
  | cons b l ih =>
    cases n with
    | zero => rfl
    | succ n =>
      rw [List.take_succ_cons, List.mem_cons, not_or] at ha
      rw [List.filter_cons_of_pos (by simpa using Ne.symm ha.1), List.take_succ_cons,
        List.take_succ_cons, ih ha.2]

/-- Taking out one of the first members moves up the one behind them. -/
theorem take_filter_of_mem {n : Nat} (hnodup : l.Nodup) (ha : a ∈ l.take (n + 1)) :
    (l.filter (· ≠ a)).take n = (l.take (n + 1)).filter (· ≠ a) := by
  induction l generalizing n with
  | nil => cases ha
  | cons b l ih =>
    obtain ⟨hb, hl⟩ := List.nodup_cons.1 hnodup
    rw [List.take_succ_cons] at ha ⊢
    by_cases hba : b = a
    · subst hba
      have hfirst : b ∉ l.take n := fun hmem => hb (List.mem_of_mem_take hmem)
      rw [List.filter_cons_of_neg (by simp), List.filter_cons_of_neg (by simp),
        take_filter_of_not_mem hfirst]
      refine (List.filter_eq_self.2 fun c hc => ?_).symm
      exact decide_eq_true fun heq : c = b => hfirst (heq ▸ hc)
    · rw [List.filter_cons_of_pos (by simpa using hba), List.filter_cons_of_pos (by simpa using hba)]
      obtain heq | ha := List.mem_cons.1 ha
      · exact absurd heq.symm hba
      · cases n with
        | zero => cases ha
        | succ n => rw [List.take_succ_cons, ih hl ha]

end Distinct

/-! ## Stores that keep what was used last -/

/-- A store keeps the queries that were used last: it can be seen as a list, and its
operations move a query that is found to the front, put a new one in front and drop the last
one when there is no room. -/
structure QueryStore.KeepsRecent {σ : Type} (ops : QueryStore σ)
    (held : σ → List (String × CachedQuery)) : Prop where
  held_empty : ∀ room, 0 < room → held (ops.empty room) = []
  room_empty : ∀ room, 0 < room → ops.room (ops.empty room) = room
  find : ∀ s text, (ops.find s text).1 = (held s).lookup text
  held_find : ∀ s text found, (held s).lookup text = some found →
    held (ops.find s text).2 = (text, found) :: (held s).filter (·.1 ≠ text)
  held_find_none : ∀ s text, (held s).lookup text = none → held (ops.find s text).2 = held s
  room_find : ∀ s text, ops.room (ops.find s text).2 = ops.room s
  held_put : ∀ s text query, (held s).lookup text = none → held (ops.put s text query) =
    (text, query) :: if (held s).length < ops.room s then held s else (held s).dropLast
  room_put : ∀ s text query, ops.room (ops.put s text query) = ops.room s
  held_clear : ∀ s, held (ops.clear s) = []
  room_clear : ∀ s, ops.room (ops.clear s) = ops.room s
  size : ∀ s, ops.size s = (held s).length

/-- A list of queries keeps those that were used last. -/
theorem RecentQueries.ops_keepsRecent : RecentQueries.ops.KeepsRecent RecentQueries.entries where
  held_empty _ _ := rfl
  room_empty _ _ := rfl
  find s text := by
    simp only [ops, RecentQueries.find]
    split
    · rename_i hfound
      exact hfound.symm
    · rename_i hnone
      exact hnone.symm
  held_find s text found hfound := by
    simp only [ops, RecentQueries.find, hfound]
  held_find_none s text hnone := by
    simp only [ops, RecentQueries.find, hnone]
  room_find s text := by
    simp only [ops, RecentQueries.find]
    split
    · rfl
    · rfl
  held_put _ _ _ _ := rfl
  room_put _ _ _ := rfl
  held_clear _ := rfl
  room_clear _ := rfl
  size _ := rfl

/-! ## Calls -/

/-- What is asked of a cache. -/
inductive CacheCall where
  | get (text : String)
  | clear
  deriving DecidableEq, Repr

namespace CacheCall

/-- The texts that were asked for since the cache was last emptied, the latest first. -/
def asked (calls : List CacheCall) : List String :=
  calls.foldl (fun texts call =>
    match call with
    | .get text => text :: texts
    | .clear => []) []

/-- The different texts that were asked for since the cache was last emptied, the one asked
for last first. -/
def recent (calls : List CacheCall) : List String := (asked calls).eraseDups

theorem recent_get (calls : List CacheCall) (text : String) :
    recent (calls ++ [.get text]) = text :: (recent calls).filter (· ≠ text) := by
  have hasked : asked (calls ++ [.get text]) = text :: asked calls := by
    rw [asked, List.foldl_append]
    rfl
  rw [recent, hasked, List.eraseDups_cons, eraseDups_filter, recent]
  congr 1
  refine List.filter_congr fun t _ => ?_
  by_cases ht : t = text
  · simp [ht]
  · simp [ht]

theorem recent_clear (calls : List CacheCall) : recent (calls ++ [.clear]) = [] := by
  rw [recent, asked, List.foldl_append]
  rfl

end CacheCall

/-- A cache after some calls, and the texts that were asked for with the answers, the latest
first. -/
structure CacheRun (σ : Type) where
  cache : StoredQueries σ
  answers : List (String × CachedQuery)

namespace CacheRun

variable {σ : Type} (ops : QueryStore σ)

/-- One more call. -/
def step (run : CacheRun σ) : CacheCall → CacheRun σ
  | .get text =>
    let (answer, cache) := run.cache.get ops text
    ⟨cache, (text, answer) :: run.answers⟩
  | .clear => { run with cache := run.cache.clear ops }

/-- The calls one after the other, to a new cache. -/
def after (capacity : Nat) (calls : List CacheCall) : CacheRun σ :=
  calls.foldl (step ops) ⟨.new ops capacity, []⟩

theorem after_append (capacity : Nat) (calls : List CacheCall) (call : CacheCall) :
    after ops capacity (calls ++ [call]) = (after ops capacity calls).step ops call := by
  rw [after, List.foldl_append]
  rfl

end CacheRun

/-! ## What is kept -/

section Kept

variable {σ : Type} {ops : QueryStore σ} {held : σ → List (String × CachedQuery)}
variable {capacity : Nat} {texts : List String} {run : CacheRun σ}

/-- What holds of a cache after calls that left `texts`: its store holds the first of them
with their last answers, and every answer is the query of its text. -/
structure KeepsTexts (ops : QueryStore σ) (held : σ → List (String × CachedQuery))
    (capacity : Nat) (texts : List String) (run : CacheRun σ) : Prop where
  room : ops.room run.cache.store = max capacity 1
  texts : (held run.cache.store).map Prod.fst = texts.take (max capacity 1)
  last : ∀ e ∈ held run.cache.store, run.answers.lookup e.1 = some e.2
  query : ∀ e ∈ run.answers, e.2.query = Query.compile none e.1
  compiled : ∀ e ∈ run.answers, e.2.serial < run.cache.compiled
  serial : ∀ e ∈ run.answers, ∀ e' ∈ run.answers, e.2.serial = e'.2.serial → e = e'

namespace KeepsTexts

/-- There is always room for one query. -/
theorem exists_room (capacity : Nat) : ∃ room, max capacity 1 = room + 1 :=
  ⟨max capacity 1 - 1, by omega⟩

/-- A text that is held is among the texts asked for last. -/
theorem exists_lookup_iff (h : KeepsTexts ops held capacity texts run) (text : String) :
    (∃ found, (held run.cache.store).lookup text = some found) ↔
      text ∈ texts.take (max capacity 1) := by
  rw [← h.texts, ← Option.isSome_iff_exists, List.lookup_isSome_iff, List.mem_map]
  constructor
  · rintro ⟨e, he, heq⟩
    exact ⟨e, he, (beq_iff_eq.1 heq).symm⟩
  · rintro ⟨e, he, rfl⟩
    exact ⟨e, he, beq_self_eq_true _⟩

theorem mem_of_lookup {l : List (String × CachedQuery)} {text : String} {found : CachedQuery}
    (hfound : l.lookup text = some found) : (text, found) ∈ l := by
  obtain ⟨before, behind, rfl, -⟩ := List.lookup_eq_some_iff.1 hfound
  exact List.mem_append_right _ List.mem_cons_self

/-- A text that is held is answered with what was answered to it last. -/
theorem get_of_mem (h : KeepsTexts ops held capacity texts run) (hlaws : ops.KeepsRecent held)
    {text : String} (htext : text ∈ texts.take (max capacity 1)) :
    ∃ found, (held run.cache.store).lookup text = some found ∧
      run.answers.lookup text = some found ∧
      run.cache.get ops text =
        (found, { run.cache with store := (ops.find run.cache.store text).2 }) := by
  obtain ⟨found, hfound⟩ := (h.exists_lookup_iff text).2 htext
  refine ⟨found, hfound, h.last _ (mem_of_lookup hfound), ?_⟩
  have hfind := hlaws.find run.cache.store text
  rw [hfound] at hfind
  rw [StoredQueries.get]
  rcases hanswer : ops.find run.cache.store text with ⟨answer, store⟩
  rw [hanswer] at hfind
  obtain rfl : answer = some found := hfind
  rfl

/-- Any other text is compiled, which gives it a new serial number. -/
theorem get_of_not_mem (h : KeepsTexts ops held capacity texts run)
    (hlaws : ops.KeepsRecent held) {text : String}
    (htext : text ∉ texts.take (max capacity 1)) :
    (held run.cache.store).lookup text = none ∧
      run.cache.get ops text = (⟨run.cache.compiled, .compile none text⟩,
        ⟨ops.put (ops.find run.cache.store text).2 text
          ⟨run.cache.compiled, .compile none text⟩, run.cache.compiled + 1⟩) := by
  have hnone : (held run.cache.store).lookup text = none := by
    rw [Option.eq_none_iff_forall_ne_some]
    intro found hfound
    exact htext ((h.exists_lookup_iff text).1 ⟨found, hfound⟩)
  refine ⟨hnone, ?_⟩
  have hfind := hlaws.find run.cache.store text
  rw [hnone] at hfind
  rw [StoredQueries.get]
  rcases hanswer : ops.find run.cache.store text with ⟨answer, store⟩
  rw [hanswer] at hfind
  obtain rfl : answer = none := hfind
  rfl

/-- A text that is held moves to the front. -/
theorem step_get_of_mem (h : KeepsTexts ops held capacity texts run)
    (hlaws : ops.KeepsRecent held) (hnodup : texts.Nodup) {text : String}
    (htext : text ∈ texts.take (max capacity 1)) :
    KeepsTexts ops held capacity (text :: texts.filter (· ≠ text)) (run.step ops (.get text)) := by
  obtain ⟨found, hheld, hanswered, hget⟩ := h.get_of_mem hlaws htext
  have hmem : (text, found) ∈ run.answers := mem_of_lookup hanswered
  obtain ⟨room, hroom⟩ := exists_room capacity
  -- the answer was given before, so there is no new one to speak of
  have hanswers : ∀ e, e ∈ (text, found) :: run.answers ↔ e ∈ run.answers := by
    intro e
    rw [List.mem_cons, or_iff_right_of_imp]
    rintro rfl
    exact hmem
  rw [CacheRun.step, hget]
  refine ⟨?_, ?_, ?_, ?_, ?_, ?_⟩
  · rw [← h.room]
    exact hlaws.room_find _ _
  · have htexts := h.texts
    rw [hroom] at htexts htext ⊢
    rw [hlaws.held_find _ _ _ hheld, List.map_cons, List.take_succ_cons,
      take_filter_of_mem hnodup htext, ← htexts, List.filter_map]
    rfl
  · intro e he
    rw [hlaws.held_find _ _ _ hheld, List.mem_cons, List.mem_filter] at he
    obtain rfl | ⟨he, hne⟩ := he
    · exact List.lookup_cons_self
    · rw [List.lookup_cons, beq_false_of_ne (by simpa using hne)]
      exact h.last e he
  · intro e he
    exact h.query e ((hanswers e).1 he)
  · intro e he
    exact h.compiled e ((hanswers e).1 he)
  · intro e he e' he'
    exact h.serial e ((hanswers e).1 he) e' ((hanswers e').1 he')

/-- A new text comes first, and the last one goes when there is no room. -/
theorem texts_put (h : KeepsTexts ops held capacity texts run) {text : String}
    (htext : text ∉ texts.take (max capacity 1)) (query : CachedQuery) :
    ((text, query) :: if (held run.cache.store).length < max capacity 1
        then held run.cache.store else (held run.cache.store).dropLast).map Prod.fst =
      (text :: texts.filter (· ≠ text)).take (max capacity 1) := by
  obtain ⟨room, hroom⟩ := exists_room capacity
  have hfirst : text ∉ texts.take room := fun hmem =>
    htext (List.take_subset_take_left _ (by omega) hmem)
  have hlength : (held run.cache.store).length = min (room + 1) texts.length := by
    rw [← List.length_map (f := Prod.fst), h.texts, List.length_take, hroom]
  rw [List.map_cons, hroom, List.take_succ_cons, take_filter_of_not_mem hfirst]
  congr 1
  split
  · rename_i hlt
    rw [h.texts, hroom, List.take_of_length_le (by omega), List.take_of_length_le (by omega)]
  · rename_i hfull
    rw [List.map_dropLast, h.texts, hroom, List.dropLast_eq_take, List.length_take,
      List.take_take]
    congr 1
    omega

/-- Any other text is put in front, with the answer that was compiled for it. -/
theorem step_get_of_not_mem (h : KeepsTexts ops held capacity texts run)
    (hlaws : ops.KeepsRecent held) {text : String}
    (htext : text ∉ texts.take (max capacity 1)) :
    KeepsTexts ops held capacity (text :: texts.filter (· ≠ text)) (run.step ops (.get text)) := by
  obtain ⟨hnone, hget⟩ := h.get_of_not_mem hlaws htext
  have hstore : held (ops.find run.cache.store text).2 = held run.cache.store :=
    hlaws.held_find_none _ _ hnone
  have hheld := hlaws.held_put (ops.find run.cache.store text).2 text
    ⟨run.cache.compiled, .compile none text⟩ (hstore ▸ hnone)
  rw [hstore, hlaws.room_find, h.room] at hheld
  have hkept : ∀ e ∈ if (held run.cache.store).length < max capacity 1
      then held run.cache.store else (held run.cache.store).dropLast,
      e ∈ held run.cache.store := by
    intro e he
    split at he
    · exact he
    · exact List.dropLast_subset _ he
  rw [CacheRun.step, hget]
  refine ⟨?_, ?_, ?_, ?_, ?_, ?_⟩
  · rw [← h.room]
    exact (hlaws.room_put _ _ _).trans (hlaws.room_find _ _)
  · rw [hheld]
    exact h.texts_put htext _
  · intro e he
    rw [hheld, List.mem_cons] at he
    obtain rfl | he := he
    · exact List.lookup_cons_self
    · have hne : e.1 ≠ text := by
        rintro rfl
        exact htext (h.texts ▸ List.mem_map_of_mem (hkept e he))
      rw [List.lookup_cons, beq_false_of_ne hne]
      exact h.last e (hkept e he)
  · intro e he
    obtain rfl | he := List.mem_cons.1 he
    · rfl
    · exact h.query e he
  · intro e he
    obtain rfl | he := List.mem_cons.1 he
    · exact Nat.lt_succ_self _
    · exact Nat.lt_succ_of_lt (h.compiled e he)
  · -- the new serial number is above all others
    intro e he e' he' heq
    obtain rfl | he := List.mem_cons.1 he
    · obtain rfl | he' := List.mem_cons.1 he'
      · rfl
      · exact absurd heq.symm (Nat.ne_of_lt (h.compiled e' he'))
    · obtain rfl | he' := List.mem_cons.1 he'
      · exact absurd heq (Nat.ne_of_lt (h.compiled e he))
      · exact h.serial e he e' he' heq

/-- An emptied cache holds nothing, and gives no serial number twice. -/
theorem step_clear (h : KeepsTexts ops held capacity texts run) (hlaws : ops.KeepsRecent held) :
    KeepsTexts ops held capacity [] (run.step ops .clear) where
  room := (hlaws.room_clear _).trans h.room
  texts := by
    have hheld : held (run.step ops .clear).cache.store = [] := hlaws.held_clear _
    rw [hheld, List.take_nil, List.map_nil]
  last e he := by
    have hheld : held (run.step ops .clear).cache.store = [] := hlaws.held_clear _
    rw [hheld] at he
    cases he
  query := h.query
  compiled := h.compiled
  serial := h.serial

end KeepsTexts

/-- Any calls leave the texts that they asked for last. -/
theorem CacheRun.after_keepsTexts (hlaws : ops.KeepsRecent held) (capacity : Nat)
    (calls : List CacheCall) :
    KeepsTexts ops held capacity (CacheCall.recent calls) (CacheRun.after ops capacity calls) := by
  induction calls using List.reverseRecOn with
  | nil =>
    have hheld : held (ops.empty (max capacity 1)) = [] :=
      hlaws.held_empty _ (Nat.le_max_right _ _)
    refine ⟨hlaws.room_empty _ (Nat.le_max_right _ _), ?_, ?_, ?_, ?_, ?_⟩
    · exact (congrArg (List.map Prod.fst) hheld).trans List.take_nil.symm
    · intro e he
      have hmem : e ∈ ([] : List (String × CachedQuery)) := hheld ▸ he
      cases hmem
    · intro e he
      cases he
    · intro e he
      cases he
    · intro e he
      cases he
  | append_singleton calls call ih =>
    rw [CacheRun.after_append]
    cases call with
    | get text =>
      rw [CacheCall.recent_get]
      by_cases htext : text ∈ (CacheCall.recent calls).take (max capacity 1)
      · exact ih.step_get_of_mem hlaws (nodup_eraseDups _) htext
      · exact ih.step_get_of_not_mem hlaws htext
    | clear =>
      rw [CacheCall.recent_clear]
      exact ih.step_clear hlaws

/-! ## What is answered -/

/-- A cache answers as if it compiled every text, and answers what it answered before exactly
to the texts asked for last. -/
structure Transparent (ops : QueryStore σ) (capacity : Nat) (calls : List CacheCall) : Prop where
  room : (CacheRun.after ops capacity calls).cache.capacity ops = max capacity 1
  /-- as many queries are kept as fit of those that were asked for -/
  size : (CacheRun.after ops capacity calls).cache.size ops =
    min (max capacity 1) (CacheCall.recent calls).length
  /-- a text is answered with its query -/
  query : ∀ text, ((CacheRun.after ops capacity calls).cache.get ops text).1.query =
    Query.compile none text
  /-- a serial number is that of one compilation of one text -/
  serial : ∀ e ∈ (CacheRun.after ops capacity calls).answers,
    ∀ e' ∈ (CacheRun.after ops capacity calls).answers, e.2.serial = e'.2.serial → e = e'
  /-- a compilation is answered again exactly to the texts asked for last -/
  again : ∀ text, (∃ e ∈ (CacheRun.after ops capacity calls).answers,
      e.2.serial = ((CacheRun.after ops capacity calls).cache.get ops text).1.serial) ↔
    text ∈ (CacheCall.recent calls).take (max capacity 1)
  /-- what is answered again is what the text was answered with last -/
  last : ∀ text ∈ (CacheCall.recent calls).take (max capacity 1),
    (CacheRun.after ops capacity calls).answers.lookup text =
      some ((CacheRun.after ops capacity calls).cache.get ops text).1

/-- Over any store that keeps what was used last, a cache answers as if it compiled every text,
whatever was asked of it before. -/
theorem QueryStore.KeepsRecent.transparent (hlaws : ops.KeepsRecent held) (capacity : Nat)
    (calls : List CacheCall) : Transparent ops capacity calls := by
  have h := CacheRun.after_keepsTexts hlaws capacity calls
  refine ⟨h.room, ?_, ?_, h.serial, ?_, ?_⟩
  · rw [StoredQueries.size, hlaws.size, ← List.length_map (f := Prod.fst), h.texts,
      List.length_take]
  · intro text
    by_cases htext : text ∈ (CacheCall.recent calls).take (max capacity 1)
    · obtain ⟨found, -, hanswered, hget⟩ := h.get_of_mem hlaws htext
      rw [hget]
      exact h.query _ (KeepsTexts.mem_of_lookup hanswered)
    · obtain ⟨-, hget⟩ := h.get_of_not_mem hlaws htext
      rw [hget]
  · intro text
    by_cases htext : text ∈ (CacheCall.recent calls).take (max capacity 1)
    · obtain ⟨found, -, hanswered, hget⟩ := h.get_of_mem hlaws htext
      rw [hget]
      exact ⟨fun _ => htext, fun _ => ⟨_, KeepsTexts.mem_of_lookup hanswered, rfl⟩⟩
    · obtain ⟨-, hget⟩ := h.get_of_not_mem hlaws htext
      rw [hget]
      refine ⟨?_, fun hmem => absurd hmem htext⟩
      rintro ⟨e, he, hserial⟩
      exact absurd hserial (Nat.ne_of_lt (h.compiled e he))
  · intro text htext
    obtain ⟨found, -, hanswered, hget⟩ := h.get_of_mem hlaws htext
    rw [hget]
    exact hanswered

/-- With room for two, the text that was not asked for the longest is compiled again, and the
one that was asked for twice is kept. -/
theorem transparent_evicting :
    CacheCall.recent [.clear, .get "a", .get "((", .get "a", .get "b"] = ["b", "a", "(("] ∧
      ((CacheRun.after RecentQueries.ops 2
        [.clear, .get "a", .get "((", .get "a", .get "b"]).cache.get RecentQueries.ops "((").1.serial
          = 3 ∧
      ((CacheRun.after RecentQueries.ops 2
        [.clear, .get "a", .get "((", .get "a", .get "b"]).cache.get RecentQueries.ops "a").1.serial
          = 0 ∧
      RecentQueries.ops.KeepsRecent RecentQueries.entries ∧
      Transparent RecentQueries.ops 2 [.clear, .get "a", .get "((", .get "a", .get "b"] := by
  refine ⟨by decide +kernel, by decide +kernel, by decide +kernel,
    RecentQueries.ops_keepsRecent, ?_⟩
  exact RecentQueries.ops_keepsRecent.transparent 2 _

end Kept

end XmlTree

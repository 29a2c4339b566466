/-
  Query/Cache.lean --- keeping compiled queries.

  WHAT THIS FILE IS FOR.  A query without variables depends only on its text, so the
  queries asked for last are kept.  When there are too many, the one that was not
  asked for the longest is dropped.  Each compilation has a serial number, which tells
  a query that was kept from one that was compiled again.

  THE STORE.  What is kept and what is dropped is the business of a store, and the cache
  knows only its operations.  The store that is used here is a plain list.
-/
import XmlTree.Query.Query

set_option autoImplicit false

namespace XmlTree

/-- A kept query and the number of its compilation. -/
structure CachedQuery where
  serial : Nat
  query : Query

/-- The operations of a store that keeps queries under their texts and has room for a
limited number of them. -/
structure QueryStore (σ : Type) where
  /-- a store that holds nothing -/
  empty : (room : Nat) → σ
  /-- asks for the query of a text, which counts as a use of it -/
  find : σ → (text : String) → Option CachedQuery × σ
  /-- puts a query in under a text -/
  put : σ → (text : String) → CachedQuery → σ
  /-- drops all queries -/
  clear : σ → σ
  /-- the number of queries held -/
  size : σ → Nat
  /-- how many queries may be held -/
  room : σ → Nat

/-- Compiled queries that are kept in a store. -/
structure StoredQueries (σ : Type) where
  store : σ
  /-- number of compilations -/
  compiled : Nat

namespace StoredQueries

variable {σ : Type} (ops : QueryStore σ)

/-- Keeps nothing yet, and never more than `capacity` queries, but always one. -/
def new (capacity : Nat) : StoredQueries σ := ⟨ops.empty (max capacity 1), 0⟩

/-- How many queries may be kept. -/
def capacity (cache : StoredQueries σ) : Nat := ops.room cache.store

/-- The number of queries kept. -/
def size (cache : StoredQueries σ) : Nat := ops.size cache.store

/-- The query for a text, compiled unless it is kept.  A query that could not be read is
kept like any other. -/
def get (cache : StoredQueries σ) (text : String) : CachedQuery × StoredQueries σ :=
  match ops.find cache.store text with
  | (some found, store) => (found, { cache with store })
  | (none, store) =>
    let entry : CachedQuery := ⟨cache.compiled, .compile none text⟩
    (entry, ⟨ops.put store text entry, cache.compiled + 1⟩)

/-- Drops all queries. -/
def clear (cache : StoredQueries σ) : StoredQueries σ :=
  { cache with store := ops.clear cache.store }

end StoredQueries

/-! ## The store -/

/-- Queries under their texts, the one used last first. -/
structure RecentQueries where
  room : Nat
  entries : List (String × CachedQuery)

namespace RecentQueries

/-- The query of a text; if there is one, it moves to the front. -/
def find (s : RecentQueries) (text : String) : Option CachedQuery × RecentQueries :=
  match s.entries.lookup text with
  | some found =>
    (some found, { s with entries := (text, found) :: s.entries.filter (·.1 ≠ text) })
  | none => (none, s)

/-- Puts a query in front, and drops the last one when there is no room. -/
def put (s : RecentQueries) (text : String) (query : CachedQuery) : RecentQueries :=
  { s with entries := (text, query) ::
      if s.entries.length < s.room then s.entries else s.entries.dropLast }

/-- Lists of queries as a store. -/
def ops : QueryStore RecentQueries where
  empty room := ⟨room, []⟩
  find := find
  put := put
  clear s := { s with entries := [] }
  size s := s.entries.length
  room s := s.room

end RecentQueries

/-! ## The cache -/

/-- The queries asked for last. -/
def QueryCache : Type := StoredQueries RecentQueries

namespace QueryCache

/-- Keeps nothing yet, and never more than `capacity` queries, but always one. -/
def new (capacity : Nat) : QueryCache := StoredQueries.new RecentQueries.ops capacity

/-- How many queries may be kept. -/
def capacity (cache : QueryCache) : Nat := StoredQueries.capacity RecentQueries.ops cache

/-- The number of queries kept. -/
def size (cache : QueryCache) : Nat := StoredQueries.size RecentQueries.ops cache

/-- The queries kept, the latest one first. -/
def entries (cache : QueryCache) : List CachedQuery :=
  (StoredQueries.store cache).entries.map (·.2)

/-- The query for a text, compiled unless it is kept. -/
def get (cache : QueryCache) (text : String) : CachedQuery × QueryCache :=
  StoredQueries.get RecentQueries.ops cache text

/-- Drops all queries. -/
def clear (cache : QueryCache) : QueryCache := StoredQueries.clear RecentQueries.ops cache

end QueryCache

end XmlTree

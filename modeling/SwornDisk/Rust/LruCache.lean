import SwornDisk.Lib.Program
import SwornDisk.Rust.DataSegment

/-!
# LRU cache

`LruCache` of `utils/lru.rs`: a map of nodes, and the nodes linked from the most recently
used one on.  The list is given here by the keys of its nodes.  `len` also grows when a
node is replaced, so at most one node ever is.
-/

namespace SwornDisk.Rust

open Lib List Function Option

variable {U : Type}

/-- `LruEntry` without its links. -/
structure LruEntry (U : Type) where
  key : Nat
  val : U

/-- `LruCache` -/
structure LruCache (U : Type) where
  map : OrdMap (LruEntry U)
  len : Nat
  capacity : Nat
  nodes : List Nat

variable {c : LruCache U}

namespace LruCache

def new (capacity : Nat) : LruCache U where
  map := OrdMap.empty
  len := 0
  capacity := capacity
  nodes := []

section

variable (c) (key : Nat)

/-- `detach` and `attach`: the node moves to the front. -/
def moveToFront : LruCache U :=
  { c with nodes := key :: c.nodes.erase key }

def get : Option U × LruCache U :=
  match c.map.find key with
  | some node => (some node.val, c.moveToFront key)
  | none => (none, c)

/-- `LruCache::get_mut`; what is stored through the reference is up to the caller. -/
def getMut : Option U × LruCache U :=
  match c.map.find key with
  | some node => (some node.val, c.moveToFront key)
  | none => (none, c)

def pop : Option U × LruCache U :=
  match c.map.find key with
  | none => (none, c)
  | some node =>
    (some node.val, { c with map := c.map.erase key, nodes := c.nodes.erase key })

/-- `replace_or_create_node`.  A full cache gives up the node before the tail. -/
def replaceOrCreateNode (val : U) : Except Fault (Option (Nat × U) × LruEntry U × LruCache U) :=
  if c.len = c.capacity then
    match c.nodes.getLast? with
    | none => .error .panic
    | some oldKey =>
      match c.map.find oldKey with
      | none => .error .panic
      | some old =>
        .ok (some (old.key, old.val), ⟨key, val⟩,
          { c with map := c.map.erase oldKey, nodes := c.nodes.erase oldKey })
  else .ok (none, ⟨key, val⟩, c)

/-- `LruCache::do_put`, with memory for the node and for the map. -/
def doPut (val : U) : Except Fault (Option (Nat × U) × LruCache U) :=
  match c.map.find key with
  | some node =>
    .ok (some (key, node.val),
      { c.moveToFront key with map := c.map.insert key { node with val := val } })
  | none => do
      let (replaced, node, c) ← c.replaceOrCreateNode key val
      return (replaced,
        { c with
          nodes := node.key :: c.nodes
          len := c.len + 1
          map := c.map.insert key node })

def put (val : U) : Except Fault (Option U × LruCache U) := do
  let (replaced, c) ← c.doPut key val
  return (replaced.map Prod.snd, c)

end

def lookup (c : LruCache U) (key : Nat) : Option U :=
  (c.map.find key).map LruEntry.val

/-- The list links exactly the nodes of the map, and as long as nothing was replaced,
`len` counts them. -/
structure Valid (c : LruCache U) : Prop where
  positive : 0 < c.capacity
  distinct : c.nodes.Nodup
  linked : ∀ key, key ∈ c.nodes ↔ (c.map.find key).isSome
  counted : c.len ≤ c.capacity → c.len = c.nodes.length

theorem valid_new {capacity : Nat} (positive : 0 < capacity) :
    (new capacity : LruCache U).Valid where
  positive := positive
  distinct := nodup_nil
  linked := fun key => by simp [new]
  counted := fun _ => rfl

theorem lookup_new (capacity key : Nat) : (new capacity : LruCache U).lookup key = none := rfl

theorem length_moveToFront {key : Nat} (held : key ∈ c.nodes) :
    (c.moveToFront key).nodes.length = c.nodes.length := by
  rw [LruCache.moveToFront, length_cons, length_erase_of_mem held,
    Nat.sub_add_cancel (length_pos_of_mem held)]

theorem Valid.moveToFront (valid : c.Valid) {key : Nat} (held : key ∈ c.nodes) :
    (c.moveToFront key).Valid where
  positive := valid.positive
  distinct := nodup_cons.mpr ⟨valid.distinct.not_mem_erase, valid.distinct.erase key⟩
  linked := by
    intro other
    rw [LruCache.moveToFront, ← valid.linked other]
    by_cases same : other = key
    · simp [same, held]
    · simp [same, mem_erase_of_ne]
  counted := by
    intro within
    rw [length_moveToFront held]
    exact valid.counted within

theorem Valid.get (valid : c.Valid) (key : Nat) :
    (c.get key).1 = c.lookup key ∧ (c.get key).2.Valid ∧ (c.get key).2.lookup = c.lookup := by
  unfold LruCache.get lookup
  cases found : c.map.find key with
  | none => exact ⟨rfl, valid, rfl⟩
  | some node =>
    refine ⟨rfl, valid.moveToFront ?_, rfl⟩
    rw [valid.linked, found]
    rfl

theorem Valid.replaceOrCreateNode (valid : c.Valid) (key : Nat) (val : U) :
    ∃ replaced c', c.replaceOrCreateNode key val = .ok (replaced, ⟨key, val⟩, c') ∧
      c'.nodes.Nodup ∧ (∀ other, other ∈ c'.nodes ↔ (c'.map.find other).isSome) ∧
      c'.capacity = c.capacity ∧ (c'.len < c.capacity → c'.len = c'.nodes.length) ∧
      ∀ other node, c'.map.find other = some node → c.map.find other = some node := by
  unfold LruCache.replaceOrCreateNode
  split
  · next full =>
      have count := valid.counted full.le
      have nonempty : c.nodes ≠ [] := by
        rw [← length_pos_iff, ← count, full]
        exact valid.positive
      have last := getLast?_eq_some_getLast nonempty
      obtain ⟨old, found⟩ := isSome_iff_exists.mp
        ((valid.linked _).mp (getLast_mem nonempty))
      rw [last]
      simp only [found]
      refine ⟨_, _, rfl, valid.distinct.erase _, ?_, rfl, ?_, ?_⟩
      · intro other
        simp only
        rw [OrdMap.find_erase, update_apply, valid.distinct.mem_erase_iff, valid.linked]
        split
        · next same => simp [same]
        · next differ => simp [differ]
      · intro below
        simp only at below
        omega
      · intro other node held
        simp only at held
        rw [OrdMap.find_erase, update_apply] at held
        split at held
        · cases held
        · exact held
  · exact ⟨none, c, rfl, valid.distinct, valid.linked, rfl,
      fun below => valid.counted below.le, fun _ _ held => held⟩

theorem val_find_insert (map : OrdMap (LruEntry U)) (key : Nat) (node : LruEntry U) (other : Nat) :
    ((map.insert key node).find other).map LruEntry.val =
      if other = key then some node.val else (map.find other).map LruEntry.val := by
  rw [OrdMap.find_insert, update_apply]
  split <;> rfl

/-- `put` succeeds and associates the key with the value; every other association is one
that the cache had. -/
theorem Valid.put (valid : c.Valid) (key : Nat) (val : U) :
    ∃ replaced c', c.put key val = .ok (replaced, c') ∧ c'.Valid ∧ c'.lookup key = some val ∧
      ∀ other held, c'.lookup other = some held →
        other = key ∧ held = val ∨ c.lookup other = some held := by
  unfold LruCache.put LruCache.doPut
  cases found : c.map.find key with
  | some node =>
    have moved := valid.moveToFront ((valid.linked key).mpr (by rw [found]; rfl))
    have values := val_find_insert c.map key { node with val := val }
    refine ⟨_, _, rfl, ⟨moved.positive, moved.distinct, ?_, moved.counted⟩, ?_, ?_⟩
    · intro other
      rw [moved.linked other]
      simp only [OrdMap.find_insert, update_apply]
      split
      · next same =>
          subst same
          simp [LruCache.moveToFront, found]
      · rfl
    · exact (values key).trans (if_pos rfl)
    · intro other held associated
      rw [lookup, values other] at associated
      split at associated
      · next same => exact .inl ⟨same, (some.inj associated).symm⟩
      · exact .inr associated
  | none =>
    obtain ⟨replaced, c', taken, distinct, linked, capacity, counted, kept⟩ :=
      valid.replaceOrCreateNode key val
    have absent : key ∉ c'.nodes := by
      intro member
      obtain ⟨node, held⟩ := isSome_iff_exists.mp ((linked key).mp member)
      rw [kept key node held] at found
      cases found
    have values := val_find_insert c'.map key ⟨key, val⟩
    simp only [taken, ok_bind]
    refine ⟨_, _, rfl, ⟨capacity ▸ valid.positive, nodup_cons.mpr ⟨absent, distinct⟩, ?_, ?_⟩,
      ?_, ?_⟩
    · intro other
      simp only [mem_cons, linked, OrdMap.find_insert, update_apply]
      split
      · next same => simp [same]
      · next differ => simp [differ]
    · intro within
      simp only at within ⊢
      rw [length_cons, counted (by omega)]
    · exact (values key).trans (if_pos rfl)
    · intro other held associated
      rw [lookup, values other] at associated
      split at associated
      · next same => exact .inl ⟨same, (some.inj associated).symm⟩
      · refine .inr ?_
        obtain ⟨node, here, rfl⟩ := map_eq_some_iff.mp associated
        unfold lookup
        rw [kept other node here]
        rfl

end LruCache

end SwornDisk.Rust

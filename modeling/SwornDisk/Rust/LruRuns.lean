import SwornDisk.Rust.LruCache

/-!
# Runs of the LRU cache

A cache of some capacity is to hold the most recently used keys, each with the value of its
latest `put`.  `LruCache` counts its nodes in `len`, which grows with every new key, also when
its node replaces another one, and which `pop` leaves alone.  So the counter is right as long
as no node was replaced or removed, and wrong from then on.
-/

namespace SwornDisk.Rust

open Lib List Function

variable {U : Type}

inductive LruOp (U : Type) where
  | put (key : Nat) (val : U)
  | get (key : Nat)
  | getMut (key : Nat)
  | pop (key : Nat)

def recentStep (capacity : Nat) (keys : List Nat) : LruOp U → List Nat
  | .put key _ => (key :: keys.erase key).take capacity
  | .get key => if key ∈ keys then key :: keys.erase key else keys
  | .getMut key => if key ∈ keys then key :: keys.erase key else keys
  | .pop key => keys.erase key

def recent (capacity : Nat) (ops : List (LruOp U)) : List Nat :=
  ops.foldl (recentStep capacity) []

def LruOp.value (key : Nat) : LruOp U → Option U
  | .put other val => if other = key then some val else none
  | _ => none

/-- The value of the latest `put` of a key. -/
def latestPut (ops : List (LruOp U)) (key : Nat) : Option U :=
  ops.reverse.findSome? (LruOp.value key)

theorem recent_concat (capacity : Nat) (ops : List (LruOp U)) (op : LruOp U) :
    recent capacity (ops ++ [op]) = recentStep capacity (recent capacity ops) op := by
  rw [recent, foldl_append]
  rfl

theorem latestPut_concat (ops : List (LruOp U)) (op : LruOp U) (key : Nat) :
    latestPut (ops ++ [op]) key = (op.value key).or (latestPut ops key) := by
  rw [latestPut, reverse_append, reverse_singleton, singleton_append,
    findSome?_cons]
  cases op.value key <;> rfl

def LruCache.step (c : LruCache U) : LruOp U → Except Fault (LruCache U)
  | .put key val => (c.put key val).map Prod.snd
  | .get key => .ok (c.get key).2
  | .getMut key => .ok (c.getMut key).2
  | .pop key => .ok (c.pop key).2

def LruCache.run (capacity : Nat) (ops : List (LruOp U)) : Except Fault (LruCache U) :=
  ops.foldlM LruCache.step (LruCache.new capacity)

structure LruRight (capacity : Nat) (ops : List (LruOp U)) (c : LruCache U) : Prop where
  keys : c.nodes = recent capacity ops
  atMost : c.nodes.length ≤ capacity
  len_eq : c.len = c.nodes.length
  map_length : c.map.entries.length = c.nodes.length
  values : ∀ key, (c.get key).1 = if key ∈ c.nodes then latestPut ops key else none

def KeepsNodes (capacity : Nat) (keys : List Nat) : LruOp U → Prop
  | .put key _ => key ∈ keys ∨ keys.length < capacity
  | .pop key => key ∉ keys
  | _ => True

variable {op : LruOp U} {capacity : Nat} {ops : List (LruOp U)} {c c' : LruCache U}

namespace LruCache

theorem run_concat (capacity : Nat) (ops : List (LruOp U)) (op : LruOp U) :
    run capacity (ops ++ [op]) = run capacity ops >>= fun c => c.step op := by
  rw [run, foldlM_append]
  refine congrArg _ (funext fun c => ?_)
  rw [foldlM_cons]
  cases c.step op <;> rfl

structure Tracks (capacity : Nat) (ops : List (LruOp U)) (c : LruCache U) : Prop
    extends Valid c where
  capacity_eq : c.capacity = capacity
  keys : c.nodes = recent capacity ops
  atMost : c.nodes.length ≤ capacity
  len_eq : c.len = c.nodes.length
  values : ∀ key ∈ c.nodes, c.lookup key = latestPut ops key

section

variable {capacity : Nat} {ops : List (LruOp U)} {c : LruCache U} {key : Nat}

theorem Valid.lookup_eq_none (valid : c.Valid) (absent : key ∉ c.nodes) : c.lookup key = none := by
  rw [valid.linked, Option.not_isSome_iff_eq_none] at absent
  rw [lookup, absent]
  rfl

theorem Valid.map_length (valid : c.Valid) : c.map.entries.length = c.nodes.length := by
  have nodup : (c.map.entries.map Prod.fst).Nodup :=
    pairwise_map.mpr (c.map.ascending.imp fun less => Nat.ne_of_lt less)
  have same : (c.map.entries.map Prod.fst).Perm c.nodes := by
    rw [perm_ext_iff_of_nodup nodup valid.distinct]
    intro key
    rw [valid.linked, Option.isSome_iff_exists, mem_map]
    constructor
    · rintro ⟨entry, member, rfl⟩
      exact ⟨entry.2, (OrdMap.find_eq_some_iff_mem _).mpr member⟩
    · rintro ⟨node, found⟩
      exact ⟨(key, node), (OrdMap.find_eq_some_iff_mem _).mp found, rfl⟩
  rw [← same.length_eq, length_map]

section

variable (tracks : Tracks capacity ops c)
include tracks

theorem Tracks.right : LruRight capacity ops c where
  keys := tracks.keys
  atMost := tracks.atMost
  len_eq := tracks.len_eq
  map_length := tracks.map_length
  values := by
    intro key
    rw [(tracks.toValid.get key).1]
    split
    · next held => exact tracks.values key held
    · next absent => exact tracks.toValid.lookup_eq_none absent

theorem Tracks.moveToFront (held : key ∈ c.nodes) (same : ∀ other, op.value other = none)
    (uses : recentStep capacity c.nodes op = key :: c.nodes.erase key) :
    Tracks capacity (ops ++ [op]) (c.moveToFront key) := by
  have moved := tracks.toValid.moveToFront held
  have length := length_moveToFront held
  refine ⟨moved, tracks.capacity_eq, ?_, length.trans_le tracks.atMost,
    tracks.len_eq.trans length.symm, fun other member => ?_⟩
  · rw [recent_concat, ← tracks.keys, uses]
    rfl
  · rw [latestPut_concat, same other, Option.none_or]
    refine tracks.values other ?_
    rw [tracks.linked]
    exact (moved.linked other).mp member

theorem Tracks.missed (same : ∀ other, op.value other = none)
    (stays : recentStep capacity c.nodes op = c.nodes) : Tracks capacity (ops ++ [op]) c := by
  refine { tracks with keys := ?_, values := fun other held => ?_ }
  · rw [recent_concat, ← tracks.keys, stays]
  · rw [latestPut_concat, same other, Option.none_or]
    exact tracks.values other held

end

theorem put_held {node : LruEntry U} (found : c.map.find key = some node) (val : U) :
    c.put key val = .ok (some node.val,
      { c.moveToFront key with map := c.map.insert key { node with val := val } }) := by
  unfold put doPut
  rw [found]
  rfl

theorem put_new (missing : c.map.find key = none) (room : c.len ≠ c.capacity) (val : U) :
    c.put key val = .ok (none,
      { c with
        nodes := key :: c.nodes
        len := c.len + 1
        map := c.map.insert key ⟨key, val⟩ }) := by
  unfold put doPut replaceOrCreateNode
  rw [missing, if_neg room]
  rfl

variable (tracks : Tracks capacity ops c)
include tracks

theorem Tracks.put_new (absent : key ∉ c.nodes) (room : c.nodes.length < capacity) (val : U) :
    ∃ c', c.step (.put key val) = .ok c' ∧ Tracks capacity (ops ++ [.put key val]) c' := by
  have missing : c.map.find key = none := by
    rwa [tracks.linked, Option.not_isSome_iff_eq_none] at absent
  have notFull : c.len ≠ c.capacity := by
    rw [tracks.len_eq, tracks.capacity_eq]
    exact Nat.ne_of_lt room
  obtain ⟨replaced, c', run, valid, here, others⟩ := tracks.toValid.put key val
  have new := LruCache.put_new missing notFull val
  obtain ⟨-, rfl⟩ := Prod.mk.inj (Except.ok.inj (run.symm.trans new))
  refine ⟨_, by rw [step, new]; rfl, valid, tracks.capacity_eq, ?_, room, ?_, ?_⟩
  · rw [recent_concat, ← tracks.keys]
    simp only [recentStep]
    rw [erase_of_not_mem absent, take_of_length_le (by rw [length_cons]; omega)]
  · change c.len + 1 = _
    rw [tracks.len_eq]
    rfl
  · intro other member
    rw [latestPut_concat]
    by_cases same : key = other
    · subst same
      rw [here, LruOp.value, if_pos rfl]
      rfl
    · have old : other ∈ c.nodes := (mem_cons.mp member).resolve_left (Ne.symm same)
      rw [LruOp.value, if_neg same, Option.none_or, ← tracks.values other old]
      unfold lookup
      simp only [OrdMap.find_insert, update_of_ne (Ne.symm same)]

theorem Tracks.put_held (held : key ∈ c.nodes) (val : U) :
    ∃ c', c.step (.put key val) = .ok c' ∧ Tracks capacity (ops ++ [.put key val]) c' := by
  obtain ⟨node, found⟩ := Option.isSome_iff_exists.mp ((tracks.linked key).mp held)
  obtain ⟨replaced, c', run, valid, here, others⟩ := tracks.toValid.put key val
  have update := LruCache.put_held found val
  have length := length_moveToFront held
  obtain ⟨-, rfl⟩ := Prod.mk.inj (Except.ok.inj (run.symm.trans update))
  refine ⟨_, by rw [step, update]; rfl, valid, tracks.capacity_eq, ?_,
    length.trans_le tracks.atMost, tracks.len_eq.trans length.symm, ?_⟩
  · rw [recent_concat, ← tracks.keys]
    exact (take_of_length_le (length.trans_le tracks.atMost)).symm
  · intro other member
    rw [latestPut_concat]
    by_cases same : key = other
    · subst same
      rw [here, LruOp.value, if_pos rfl]
      rfl
    · have old : other ∈ c.nodes :=
        mem_of_mem_erase ((mem_cons.mp member).resolve_left (Ne.symm same))
      rw [LruOp.value, if_neg same, Option.none_or, ← tracks.values other old]
      unfold lookup
      simp only [OrdMap.find_insert, update_of_ne (Ne.symm same)]

theorem Tracks.step (keeps : KeepsNodes capacity (recent capacity ops) op) :
    ∃ c', c.step op = .ok c' ∧ Tracks capacity (ops ++ [op]) c' := by
  rw [← tracks.keys] at keeps
  have found : ∀ key ∉ c.nodes, c.map.find key = none := by
    intro key absent
    rwa [tracks.linked, Option.not_isSome_iff_eq_none] at absent
  cases op with
  | put key val =>
    by_cases held : key ∈ c.nodes
    · exact tracks.put_held held val
    · exact tracks.put_new held (keeps.resolve_left held) val
  | get key =>
    refine ⟨_, rfl, ?_⟩
    by_cases held : key ∈ c.nodes
    · obtain ⟨node, here⟩ := Option.isSome_iff_exists.mp ((tracks.linked key).mp held)
      rw [LruCache.get, here]
      exact tracks.moveToFront held (fun _ => rfl) (if_pos held)
    · rw [LruCache.get, found key held]
      exact tracks.missed (fun _ => rfl) (if_neg held)
  | getMut key =>
    refine ⟨_, rfl, ?_⟩
    by_cases held : key ∈ c.nodes
    · obtain ⟨node, here⟩ := Option.isSome_iff_exists.mp ((tracks.linked key).mp held)
      rw [LruCache.getMut, here]
      exact tracks.moveToFront held (fun _ => rfl) (if_pos held)
    · rw [LruCache.getMut, found key held]
      exact tracks.missed (fun _ => rfl) (if_neg held)
  | pop key =>
    refine ⟨_, rfl, ?_⟩
    rw [LruCache.pop, found key keeps]
    exact tracks.missed (fun _ => rfl) (erase_of_not_mem keeps)

end

theorem tracks_run (positive : 0 < capacity) (keeps : ∀ done op rest, ops = done ++ op :: rest →
      KeepsNodes capacity (recent capacity done) op) :
    ∃ c, run capacity ops = .ok c ∧ Tracks capacity ops c := by
  induction ops using List.reverseRecOn with
  | nil => exact ⟨_, rfl, valid_new positive, rfl, rfl, Nat.zero_le _, rfl, nofun⟩
  | append_singleton ops op ih =>
    obtain ⟨c, ran, tracks⟩ := ih fun done op' rest split =>
      keeps done op' (rest ++ [op]) (by simp [split])
    obtain ⟨c', stepped, tracks'⟩ := tracks.step (keeps ops op [] rfl)
    exact ⟨c', by rw [run_concat, ran, ok_bind, stepped], tracks'⟩

theorem len_put_new {key : Nat} {val : U} (missing : c.map.find key = none)
    (stepped : c.step (.put key val) = .ok c') : c'.len = c.len + 1 := by
  simp only [step, put, doPut, replaceOrCreateNode, missing] at stepped
  split at stepped
  · split at stepped
    · cases stepped
    · split at stepped
      · cases stepped
      · obtain rfl := Except.ok.inj stepped
        rfl
  · obtain rfl := Except.ok.inj stepped
    rfl

theorem keepsNodes_of_right (before : LruRight capacity ops c) (stepped : c.step op = .ok c')
    (after : LruRight capacity (ops ++ [op]) c') :
    KeepsNodes capacity (recent capacity ops) op := by
  have length := after.len_eq
  have atMost := after.atMost
  have keys := after.keys
  rw [recent_concat, ← before.keys] at keys
  rw [← before.keys]
  cases op with
  | put key val =>
    by_contra replaces
    obtain ⟨absent, full⟩ := not_or.mp replaces
    have missing : c.map.find key = none := by
      have nothing := before.values key
      rw [if_neg absent, LruCache.get] at nothing
      cases found : c.map.find key with
      | none => rfl
      | some node =>
        rw [found] at nothing
        cases nothing
    have counted := len_put_new missing stepped
    have counted' := before.len_eq
    omega
  | pop key =>
    intro held
    have fewer := length_erase_of_mem held
    have positive := length_pos_of_mem held
    obtain rfl := Except.ok.inj stepped
    have counted : (c.pop key).2.len = c.len := by
      unfold LruCache.pop
      split <;> rfl
    rw [keys] at length
    have counted' := before.len_eq
    simp only [recentStep] at length
    omega
  | get key => trivial
  | getMut key => trivial

end LruCache

/-- After every part of a sequence of calls the cache is right, exactly if no call puts a new
key into a full cache or removes a key. -/
theorem lru_right_iff {capacity : Nat} (positive : 0 < capacity) (ops : List (LruOp U)) :
    (∀ done rest, ops = done ++ rest →
      ∃ c, LruCache.run capacity done = .ok c ∧ LruRight capacity done c) ↔
    ∀ done op rest, ops = done ++ op :: rest →
      KeepsNodes capacity (recent capacity done) op := by
  constructor
  · intro right done op rest split
    obtain ⟨c, ran, before⟩ := right done (op :: rest) split
    obtain ⟨c', ran', after⟩ := right (done ++ [op]) rest (by simp [split])
    rw [LruCache.run_concat, ran, ok_bind] at ran'
    exact LruCache.keepsNodes_of_right before ran' after
  · rintro keeps done rest rfl
    have keeps' : ∀ before op rest', done = before ++ op :: rest' →
        KeepsNodes capacity (recent capacity before) op := by
      rintro before op rest' rfl
      exact keeps before op (rest' ++ rest) (by simp)
    obtain ⟨c, ran, tracks⟩ := LruCache.tracks_run positive keeps'
    exact ⟨c, ran, tracks.right⟩

theorem lru_right_two_keys :
    ∃ c, LruCache.run 2 [.put 1 true, .put 2 false, .get 1] = .ok c ∧
      LruRight 2 [.put 1 true, .put 2 false, .get 1] c := by
  refine (lru_right_iff Nat.two_pos _).mpr (fun done op rest split => ?_) _ []
    (append_nil _).symm
  rcases done with _ | ⟨first, _ | ⟨second, _ | ⟨third, done⟩⟩⟩
  · cases split
    exact .inr Nat.two_pos
  · cases split
    exact .inr Nat.one_lt_two
  · cases split
    trivial
  · simp at split

/-- A cache for one key holds two after the third `put`; after a `pop` it panics. -/
theorem lru_capacity_exceeded :
    (∃ c, LruCache.run 1 [.put 1 true, .put 2 true, .put 3 true] = .ok c ∧ c.nodes = [3, 2] ∧
      c.len = 3) ∧
    LruCache.run 1 [.put 1 true, .pop 1, .put 2 true] = .error .panic :=
  ⟨⟨_, rfl, rfl, rfl⟩, rfl⟩

end SwornDisk.Rust

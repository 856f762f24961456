import SwornDisk.C.Memtable
import SwornDisk.Lib.Aead

/-!
# Block index table files

`struct bit_file` of `lsm_tree.c` on a device that is not trusted: every node is
sealed under a key and an initial vector of its own, which its parent holds; the
tag lies next to the node.  A search starts at the root, whose key the file
holds, and opens one node after the other.  The bloom filter in front of it is
stored in the clear.
-/

namespace SwornDisk.C.Bit

open Lib List

variable {K I M G V : Type}

/-- `struct bit_pointer`. -/
structure Pointer (K I : Type) where
  pos : Nat
  key : K
  iv : I
  deriving DecidableEq

/-- `struct bit_child`. -/
structure Child (K I : Type) where
  isLeaf : Bool
  key : Nat
  pointer : Pointer K I
  deriving DecidableEq

/-- `struct bit_leaf`; `entries` are the first `nr_record` keys and records. -/
structure Leaf (K I V : Type) where
  entries : List (Nat × V)
  next : Pointer K I
  deriving DecidableEq

/-- `struct bit_node`. -/
inductive Node (K I V : Type) where
  | leaf (leaf : Leaf K I V)
  | inner (children : List (Child K I))
  deriving DecidableEq

def Pointer.secret (pointer : Pointer K I) : K × I :=
  (pointer.key, pointer.iv)

structure SealedNode (K I V : Type) where
  pointer : Pointer K I
  node : Node K I V

/-- The index region: the bytes at a position as a sealed node with its tag, read
with the length of a leaf or of an inner node. -/
abbrev Region (M G : Type) : Type :=
  Nat → Bool → G × M

def nodeEncode (aead : IdealAead K I M (Node K I V) G) (node : Node K I V) (key : K) (iv : I) :
    G × M :=
  aead.encrypt key iv 0 node

def nodeDecode (aead : IdealAead K I M (Node K I V) G) (data : G × M) (key : K) (iv : I) :
    Option (Node K I V) :=
  aead.decrypt key iv data.2 0 data.1

/-- The four bytes of a `uint32_t` in memory. -/
def keyBytes (key : Nat) : List UInt8 :=
  (List.range 4).map fun i => UInt8.ofNat (key / 256 ^ i)

/-- A `char` added to an unsigned integer is sign-extended. -/
def charValue (byte : UInt8) : UInt64 :=
  byte.toInt8.toInt64.toUInt64

def djb2 (bytes : List UInt8) : UInt64 :=
  bytes.foldl (fun hash byte => ((hash <<< 5) + hash) + charValue byte) 5381

/-- One byte of `jenkins`. -/
def jenkinsStep (hash : UInt32) (byte : UInt8) : UInt32 :=
  let added := hash + (charValue byte).toUInt32
  let spread := added + (added <<< 10)
  spread ^^^ (spread >>> 6)

def jenkins (bytes : List UInt8) : UInt64 :=
  let hash := bytes.foldl jenkinsStep 0
  let first := hash + (hash <<< 3)
  let second := first ^^^ (first >>> 11)
  (second + (second <<< 15)).toUInt64

def shash (bytes : List UInt8) : UInt64 :=
  bytes.foldl (fun hash byte => 31 * hash + byte.toUInt64) 0

/-- `BIT_BLOOM_FILTER_SIZE`, in bytes. -/
def bloomFilterSize : Nat := 1048576 <<< 1

/-- The hash functions of `bit_bloom_filter_create`; each is put in front. -/
def bloomHashFuncs : List (List UInt8 → UInt64) :=
  [shash, jenkins, djb2]

def bloomOffset (func : List UInt8 → UInt64) (key : Nat) : Nat :=
  (func (keyBytes key)).toNat % (bloomFilterSize * 8)

def bloomFilterAdd (bits : Nat → Bool) (key : Nat) : Nat → Bool :=
  bloomHashFuncs.foldl (fun bits func => Function.update bits (bloomOffset func key) true) bits

def bloomFilterContains (bits : Nat → Bool) (key : Nat) : Bool :=
  bloomHashFuncs.all fun func => bits (bloomOffset func key)

/-- `struct bit_file` in memory.  The filter bits were loaded when the file was
opened; `cachedLeaf` are the entries of the leaf found last. -/
structure File (K I V : Type) where
  root : Pointer K I
  cachedLeaf : List (Nat × V)
  filterBits : Nat → Bool

def leafSearch (entries : List (Nat × V)) (key : Nat) : Except Errno V :=
  orNoData (entries.lookup key)

/-- The child that `bit_file_search_leaf` goes to: the first that ends at the key
or beyond. -/
def routeChild (children : List (Child K I)) (key : Nat) : Option (Child K I) :=
  children.find? fun child => decide (key ≤ child.key)

theorem routeChild_cons (child : Child K I) (children : List (Child K I)) (key : Nat) :
    routeChild (child :: children) key =
      if key ≤ child.key then some child else routeChild children key := by
  rw [routeChild, find?_cons]
  by_cases reached : key ≤ child.key
  · rw [if_pos reached, decide_eq_true reached]
  · rw [if_neg reached, decide_eq_false reached]
    rfl

/-- The loop of `bit_file_search_leaf` from a pointer, with a bound on the number
of nodes.  A node of one kind does not open at the length of the other. -/
def searchLeafFrom (aead : IdealAead K I M (Node K I V) G) (region : Region M G) (key : Nat) :
    Nat → Bool → Pointer K I → Except Errno (Leaf K I V)
  | 0, _, _ => .error .enodata
  | bound + 1, isLeaf, pointer =>
    match nodeDecode aead (region pointer.pos isLeaf) pointer.key pointer.iv, isLeaf with
    | some (.leaf leaf), true =>
      match leafSearch leaf.entries key with
      | .ok _ => .ok leaf
      | .error _ => .error .enodata
    | some (.inner children), false =>
      match routeChild children key with
      | some child => searchLeafFrom aead region key bound child.isLeaf child.pointer
      | none => .error .enodata
    | _, _ => .error .enodata

section

variable (aead : IdealAead K I M (Node K I V) G) (region : Region M G) (bound : Nat)
  (file : File K I V) (key : Nat)

/-- `bit_file_search_leaf`: the root is taken to be an inner node. -/
def fileSearchLeaf : Except Errno (Leaf K I V) :=
  searchLeafFrom aead region key bound false file.root

/-- `bit_file_search`: the answer and the file with its cached leaf. -/
def fileSearch : Except Errno V × File K I V :=
  if bloomFilterContains file.filterBits key then
    match leafSearch file.cachedLeaf key with
    | .ok record => (.ok record, file)
    | .error _ =>
      match fileSearchLeaf aead region bound file key with
      | .ok leaf => (leafSearch leaf.entries key, { file with cachedLeaf := leaf.entries })
      | .error err => (.error err, file)
  else
    (.error .enodata, file)

end

/-- The region is not forged for the keys of `draw`: whatever its bytes are, only
what was sealed under such a key opens under it. -/
def Unforged (aead : IdealAead K I M (Node K I V) G) (region : Region M G) (draw : Nat → K × I)
    (log : List (SealedNode K I V)) : Prop :=
  ∀ pos isLeaf n node, nodeDecode aead (region pos isLeaf) (draw n).1 (draw n).2 = some node →
    ∃ made ∈ log, made.pointer.secret = draw n ∧ made.node = node

/-- What was sealed holds only `entries`, and the pointers of an inner node were
drawn before the pointer to it. -/
structure Authentic (draw : Nat → K × I) (log : List (SealedNode K I V))
    (entries : List (Nat × V)) : Prop where
  leaf : ∀ made ∈ log, ∀ leaf, made.node = .leaf leaf →
    ∀ entry ∈ leaf.entries, entry ∈ entries
  inner : ∀ made ∈ log, ∀ children, made.node = .inner children →
    ∃ n, made.pointer.secret = draw n ∧ ∀ child ∈ children, ∃ m < n, child.pointer.secret = draw m

variable {n bound key : Nat} {pointer : Pointer K I} {isLeaf : Bool} {file : File K I V}

section

variable {aead : IdealAead K I M (Node K I V) G} {region : Region M G} {draw : Nat → K × I}
  {log : List (SealedNode K I V)} {entries : List (Nat × V)}

/-- What may lie behind the pointer of draw `n`. -/
def Behind (draw : Nat → K × I) (entries : List (Nat × V)) (n : Nat) : Node K I V → Prop
  | .leaf leaf => ∀ entry ∈ leaf.entries, entry ∈ entries
  | .inner children => ∀ child ∈ children, ∃ m < n, child.pointer.secret = draw m

section

variable (unforged : Unforged aead region draw log) (authentic : Authentic draw log entries)
  (fresh : Function.Injective draw)
include unforged authentic fresh

theorem Unforged.opened (drawn : pointer.secret = draw n) {node : Node K I V}
    (opens : nodeDecode aead (region pointer.pos isLeaf) pointer.key pointer.iv = some node) :
    Behind draw entries n node := by
  have keyEq : pointer.key = (draw n).1 := congrArg Prod.fst drawn
  have ivEq : pointer.iv = (draw n).2 := congrArg Prod.snd drawn
  rw [keyEq, ivEq] at opens
  obtain ⟨made, member, secret, rfl⟩ := unforged _ _ _ _ opens
  cases isNode : made.node with
  | leaf leaf => exact authentic.leaf made member leaf isNode
  | inner children =>
    obtain ⟨k, drawnAt, below⟩ := authentic.inner made member children isNode
    obtain rfl : k = n := fresh (drawnAt.symm.trans secret)
    exact below

theorem searchLeafFrom_sound (drawn : pointer.secret = draw n) {leaf : Leaf K I V}
    (found : searchLeafFrom aead region key bound isLeaf pointer = .ok leaf) :
    ∀ entry ∈ leaf.entries, entry ∈ entries := by
  induction bound generalizing isLeaf pointer n with
  | zero => cases found
  | succ bound ih =>
    unfold searchLeafFrom at found
    split at found
    · rename_i opened opens
      split at found
      · cases found
        exact unforged.opened authentic fresh drawn opens
      · cases found
    · rename_i children opens
      have earlier := unforged.opened authentic fresh drawn opens
      split at found
      · rename_i child chosen
        obtain ⟨m, -, drawnEarlier⟩ := earlier child (mem_of_find?_eq_some chosen)
        exact ih drawnEarlier found
      · cases found
    · cases found

/-- A walk ends: from the pointer of draw `n` it opens at most `n + 1` nodes. -/
theorem searchLeafFrom_stable (key : Nat) (enough : n < bound) (drawn : pointer.secret = draw n) :
    searchLeafFrom aead region key bound isLeaf pointer =
      searchLeafFrom aead region key (n + 1) isLeaf pointer := by
  induction n using Nat.strongRecOn generalizing bound isLeaf pointer with
  | ind n ih =>
    obtain ⟨bound, rfl⟩ := Nat.exists_eq_succ_of_ne_zero (Nat.ne_of_gt (Nat.zero_lt_of_lt enough))
    unfold searchLeafFrom
    split
    · rfl
    · rename_i children opens
      have earlier := unforged.opened authentic fresh drawn opens
      split
      · rename_i child chosen
        obtain ⟨m, before, drawnEarlier⟩ := earlier child (mem_of_find?_eq_some chosen)
        rw [ih m before (Nat.lt_of_lt_of_le before (Nat.lt_succ_iff.mp enough)) drawnEarlier,
          ih m before before drawnEarlier]
      · rfl
    · rfl

end

theorem mem_of_leafSearch {leafEntries : List (Nat × V)} {record : V}
    (found : leafSearch leafEntries key = .ok record) : (key, record) ∈ leafEntries := by
  unfold leafSearch orNoData at found
  split at found
  · rename_i value bound
    cases found
    obtain ⟨before, after, split, -⟩ := lookup_eq_some_iff.mp bound
    simp [split]
  · cases found

variable (unforged : Unforged aead region draw log) (authentic : Authentic draw log entries)
  (fresh : Function.Injective draw) (root : file.root.secret = draw n)
include unforged authentic fresh root

theorem fileSearch_sound (cached : ∀ entry ∈ file.cachedLeaf, entry ∈ entries) {record : V}
    (found : (fileSearch aead region bound file key).1 = .ok record) : (key, record) ∈ entries := by
  unfold fileSearch at found
  split at found
  · split at found
    · rename_i hit
      cases found
      exact cached _ (mem_of_leafSearch hit)
    · split at found
      · rename_i leaf reached
        exact searchLeafFrom_sound unforged authentic fresh root reached _
          (mem_of_leafSearch found)
      · cases found
  · cases found

theorem fileSearch_stable (enough : n < bound) (key : Nat) :
    fileSearch aead region bound file key = fileSearch aead region (n + 1) file key := by
  unfold fileSearch fileSearchLeaf
  rw [searchLeafFrom_stable unforged authentic fresh key enough root]

end

end SwornDisk.C.Bit

import SwornDisk.C.BitFile
import SwornDisk.C.LsmLevel

/-!
# The builder of block index table files

`struct bit_builder` of `lsm_tree.c`.  Entries arrive in key order; every eight
fill a leaf.  For each height there is a context with up to four finished nodes;
a full context becomes an inner node one height up.  Nodes are sealed into a
buffer, which is written to the file when it runs full and once more at the end.

The state keeps with every sealed node the pointer that was made for it, so that
the position a parent records and the position the node is written to can be
compared.
-/

namespace SwornDisk.C.Bit

open List

variable {K I V : Type}

def bitDegree : Nat := 4

def bitLeafLen : Nat := bitDegree <<< 1

/-- `sizeof(struct record)`: address, tag, key and initial vector. -/
def recordSize : Nat := 8 + 16 + 16 + 12

/-- `sizeof(struct bit_pointer)`. -/
def pointerSize : Nat := 8 + 16 + 12

def bitLeafSize : Nat := 8 + bitLeafLen * 4 + bitLeafLen * recordSize + pointerSize

def bitInnerSize : Nat := 8 + bitDegree * (1 + 4 + pointerSize)

def bitNodeSize : Nat := 1 + max bitLeafSize bitInnerSize + 16

def bitLeafNodeSize : Nat := bitNodeSize - max bitLeafSize bitInnerSize + bitLeafSize

def bitInnerNodeSize : Nat := bitNodeSize - max bitLeafSize bitInnerSize + bitInnerSize

/-- `DEFAULT_LSM_FILE_BUILDER_BUFFER_SIZE`, a segment. -/
def builderBufferSize : Nat := 1024 * 8 * 512

/-- The loop of `__bit_height`, with a bound on the rounds. -/
def bitHeightLoop (nrDegree nrLeaf : Nat) : Nat → Nat → Nat → Nat
  | 0, _, height => height
  | rounds + 1, size, height =>
    if size < nrLeaf then bitHeightLoop nrDegree nrLeaf rounds (size * nrDegree) (height + 1)
    else height

def nrLeafFor (nrRecord : Nat) : Nat :=
  if nrRecord % bitLeafLen = 0 then nrRecord / bitLeafLen else nrRecord / bitLeafLen + 1

/-- `__bit_height`.  A degree of at least two needs no more rounds than leaves. -/
def bitHeight (nrRecord nrDegree : Nat) : Nat :=
  if nrRecord = 0 then 0
  else bitHeightLoop nrDegree (nrLeafFor nrRecord) (nrLeafFor nrRecord) 1 1

/-- `height` of `struct bit_builder`. -/
def builderHeight : Nat := bitHeight defaultLsmFileCapacity bitDegree

theorem builderHeight_eq : builderHeight = 10 := by
  decide +kernel

/-- The loop of `__bit_array_len`, with a bound on the rounds. -/
def bitArrayLenLoop (nrDegree nrLeaf : Nat) : Nat → Nat → Nat → Nat
  | 0, _, len => len
  | rounds + 1, size, len =>
    if size < nrLeaf then bitArrayLenLoop nrDegree nrLeaf rounds (size * nrDegree) (len + size)
    else len

def bitArrayLen (nrRecord nrDegree : Nat) : Nat :=
  if nrRecord = 0 then 0
  else bitArrayLenLoop nrDegree (nrLeafFor nrRecord) (nrLeafFor nrRecord) 1 0 + nrLeafFor nrRecord

/-- `calculate_bit_size`: the slot of a file. -/
def calculateBitSize (nrRecord nrDegree : Nat) : Nat :=
  if nrRecord = 0 then 0
  else (bitArrayLen nrRecord nrDegree - nrLeafFor nrRecord) * bitInnerNodeSize +
    nrLeafFor nrRecord * bitLeafNodeSize + bloomFilterSize

/-- Where the builder of file `id` begins. -/
def fileBegin (start id : Nat) : Nat :=
  start + id * calculateBitSize defaultLsmFileCapacity bitDegree

/-- `is_leaf` of `struct bit_node`. -/
def Node.isLeaf : Node K I V → Bool
  | .leaf _ => true
  | .inner _ => false

def Node.lastKey : Node K I V → Nat
  | .leaf contents => (contents.entries.getLast?.map Prod.fst).getD 0
  | .inner children => (children.getLast?.map Child.key).getD 0

def SealedNode.child (made : SealedNode K I V) : Child K I where
  isLeaf := made.node.isLeaf
  key := made.node.lastKey
  pointer := made.pointer

/-- `struct bit_builder_context`: its first `nr` pointers and nodes. -/
abbrev Context (K I V : Type) : Type :=
  List (SealedNode K I V)

def bitInner (ctx : Context K I V) : Node K I V :=
  .inner (ctx.map SealedNode.child)

/-- The part of `struct bit_builder` that nodes go to.  `buffer` has the nodes
copied to it with their offsets, `file` those that were written with their
positions, `draws` counts the keys drawn. -/
structure Output (K I V : Type) where
  begin : Nat
  cur : Nat
  draws : Nat
  buffer : List (Nat × SealedNode K I V)
  file : List (Nat × SealedNode K I V)

/-- `struct bit_builder`. -/
structure Builder (K I V : Type) where
  out : Output K I V
  firstKey : Option Nat
  lastKey : Nat
  size : Nat
  ctx : List (Context K I V)
  next : K × I
  curLeaf : List (Nat × V)
  filter : Nat → Bool

/-- The file that `bit_builder_complete` hands to `bit_file_create`, and what it
wrote. -/
structure Completed (K I V : Type) where
  root : Pointer K I
  filterBegin : Nat
  firstKey : Nat
  lastKey : Nat
  filter : Nat → Bool
  file : List (Nat × SealedNode K I V)

section

variable (draw : Nat → K × I) (blank : K × I)

/-- `kernel_write` of the buffer. -/
def writeBuffer (pos : Nat) (out : Output K I V) : List (Nat × SealedNode K I V) :=
  out.file ++ out.buffer.map fun placed => (pos + placed.1, placed.2)

/-- The condition of `bit_builder_buffer_flush_if_full`. -/
def bufferFull (out : Output K I V) : Bool :=
  decide (builderBufferSize < out.cur + builderHeight * bitNodeSize)

def bufferFlushIfFull (out : Output K I V) : Output K I V :=
  if bufferFull out then
    { out with
      begin := out.begin + out.cur
      cur := 0
      buffer := []
      file := writeBuffer out.begin out }
  else out

/-- Keep some bytes of the buffer for a node that is copied there later. -/
def reserve (out : Output K I V) (len : Nat) : Output K I V :=
  { out with cur := out.cur + len }

section

variable (b : Builder K I V)

/-- The pointer that is made for the next leaf, before the buffer is flushed. -/
def leafPointer : Pointer K I :=
  ⟨b.out.begin + b.out.cur, b.next.1, b.next.2⟩

def putLeaf (out : Output K I V) (offset : Nat) (pointer : Pointer K I) (leaf : Leaf K I V) :
    Output K I V :=
  { out with buffer := out.buffer ++ [(offset, ⟨pointer, .leaf leaf⟩)] }

def innerPointer (out : Output K I V) : Pointer K I :=
  ⟨out.begin + out.cur, (draw out.draws).1, (draw out.draws).2⟩

def putInner (out : Output K I V) (ctx : Context K I V) : Output K I V :=
  { out with
    cur := out.cur + bitInnerNodeSize
    draws := out.draws + 1
    buffer := out.buffer ++ [(out.cur, ⟨innerPointer draw out, bitInner ctx⟩)] }

/-- The carry loop of `bit_builder_add_entry`, from the context `lower`.  Beyond
the last context the source has no next one to push to. -/
def carry (out : Output K I V) (lower : Context K I V) :
    List (Context K I V) → Output K I V × List (Context K I V)
  | [] => (out, [lower])
  | above :: rest =>
    if lower.length = bitDegree then
      let carried := carry (putInner draw out lower)
        (above ++ [⟨innerPointer draw out, bitInner lower⟩]) rest
      (carried.1, [] :: carried.2)
    else (out, lower :: above :: rest)

/-- The last part of `bit_builder_add_entry`, with a full leaf. -/
def addLeaf (entries : List (Nat × V)) : Builder K I V :=
  let out := bufferFlushIfFull b.out
  let pushed := b.ctx.headD [] ++
    [⟨leafPointer b, .leaf ⟨entries, ⟨0, blank.1, blank.2⟩⟩⟩]
  let carried := carry draw (reserve out bitLeafNodeSize) pushed b.ctx.tail
  let next := draw carried.1.draws
  let leaf : Leaf K I V := ⟨entries, ⟨carried.1.begin + carried.1.cur, next.1, next.2⟩⟩
  { b with
    out := putLeaf { carried.1 with draws := carried.1.draws + 1 } out.cur (leafPointer b) leaf
    ctx := carried.2
    next := next
    curLeaf := [] }

def addEntry (entry : Nat × V) : Builder K I V :=
  let entries := b.curLeaf ++ [entry]
  let b := { b with
    firstKey := b.firstKey.or (some entry.1)
    lastKey := entry.1
    size := b.size + 1
    filter := bloomFilterAdd b.filter entry.1
    curLeaf := entries }
  if entries.length < bitLeafLen then b else addLeaf draw blank b entries

/-- The loop of `bit_builder_complete` over the contexts, up to the last one. -/
def climb (out : Output K I V) (lower : Context K I V) :
    List (Context K I V) → Output K I V × Context K I V
  | [] => (out, lower)
  | above :: rest =>
    if lower.length = 0 then climb out above rest
    else climb (putInner draw out lower) (above ++ [⟨innerPointer draw out, bitInner lower⟩]) rest

/-- `bit_builder_complete` when the last context is empty.  A trailing leaf is put
into the first context, but the context's `nr` does not count it. -/
def finishTree : Output K I V × Context K I V :=
  let out := bufferFlushIfFull b.out
  if b.curLeaf.length = 0 then climb draw out (b.ctx.headD []) b.ctx.tail
  else
    let climbed := climb draw (reserve out bitLeafNodeSize) (b.ctx.headD []) b.ctx.tail
    (putLeaf climbed.1 out.cur (leafPointer b) ⟨b.curLeaf, ⟨0, blank.1, blank.2⟩⟩, climbed.2)

/-- `bit_builder_complete`.  The buffer is written to where it began when the
function was entered; the root has the key of the first pointer of the last
context, which is zeroed memory when no node was pushed there. -/
def complete : Completed K I V :=
  let top := b.ctx.getLastD []
  let finished := if top.length = 0 then finishTree draw blank b else (b.out, top)
  let end' := finished.1.begin + finished.1.cur
  let secret := (finished.2.head?.map fun made => made.pointer.secret).getD blank
  { root := ⟨end' - bitInnerNodeSize, secret.1, secret.2⟩
    filterBegin := end'
    firstKey := b.firstKey.getD 0
    lastKey := b.lastKey
    filter := b.filter
    file := writeBuffer b.out.begin finished.1 }

end

def builderInit (begin : Nat) : Builder K I V where
  out := ⟨begin, 0, 1, [], []⟩
  firstKey := none
  lastKey := 0
  size := 0
  ctx := List.replicate builderHeight []
  next := draw 0
  curLeaf := []
  filter := fun _ => false

def builderWith (begin : Nat) (entries : List (Nat × V)) : Builder K I V :=
  entries.foldl (addEntry draw blank) (builderInit draw begin)

def buildFile (begin : Nat) (entries : List (Nat × V)) : Completed K I V :=
  complete draw blank (builderWith draw blank begin entries)

end

/-- `bit_file_init`, with the filter bits that `bloom_filter_load` read. -/
def fileInit (completed : Completed K I V) (bits : Nat → Bool) : File K I V where
  root := completed.root
  cachedLeaf := []
  filterBits := bits

def nodeLen (isLeaf : Bool) : Nat :=
  if isLeaf then bitLeafNodeSize else bitInnerNodeSize

def behind (placed : Nat × SealedNode K I V) : Nat :=
  placed.1 + nodeLen placed.2.node.isLeaf

/-- A read of a node: what was written there last, if it is one whole node. -/
def readNode (file : List (Nat × SealedNode K I V)) (pos : Nat) (isLeaf : Bool) :
    Option (SealedNode K I V) :=
  match file.reverse.find? fun placed =>
      decide (placed.1 < pos + nodeLen isLeaf ∧ pos < behind placed) with
  | some placed =>
    if placed.1 = pos ∧ placed.2.node.isLeaf = isLeaf then some placed.2 else none
  | none => none

/-- Nodes that lie between two positions, each where its pointer says, and do not
overlap. -/
structure Laid (lo hi : Nat) (nodes : List (Nat × SealedNode K I V)) : Prop where
  le : lo ≤ hi
  recorded : ∀ placed ∈ nodes, placed.1 = placed.2.pointer.pos
  above : ∀ placed ∈ nodes, lo ≤ placed.1
  below : ∀ placed ∈ nodes, behind placed ≤ hi
  apart : nodes.Pairwise fun a b => behind a ≤ b.1 ∨ behind b ≤ a.1

namespace Laid

variable {lo mid hi : Nat} {nodes others : List (Nat × SealedNode K I V)}

theorem nil (le : lo ≤ hi) : Laid lo hi ([] : List (Nat × SealedNode K I V)) where
  le := le
  recorded _ member := absurd member not_mem_nil
  above _ member := absurd member not_mem_nil
  below _ member := absurd member not_mem_nil
  apart := List.Pairwise.nil

theorem single (made : SealedNode K I V) :
    Laid made.pointer.pos (made.pointer.pos + nodeLen made.node.isLeaf)
      [(made.pointer.pos, made)] where
  le := Nat.le_add_right _ _
  recorded _ member := by rw [mem_singleton.mp member]
  above _ member := by rw [mem_singleton.mp member]
  below _ member := by rw [mem_singleton.mp member]; exact le_rfl
  apart := pairwise_singleton _ _

theorem append (left : Laid lo mid nodes) (right : Laid mid hi others) :
    Laid lo hi (nodes ++ others) where
  le := left.le.trans right.le
  recorded placed member := (mem_append.mp member).elim (left.recorded placed)
    (right.recorded placed)
  above placed member := (mem_append.mp member).elim (left.above placed)
    fun inRight => left.le.trans (right.above placed inRight)
  below placed member := (mem_append.mp member).elim
    (fun inLeft => (left.below placed inLeft).trans right.le) (right.below placed)
  apart := pairwise_append.mpr ⟨left.apart, right.apart, fun a inLeft b inRight =>
    .inl ((left.below a inLeft).trans (right.above b inRight))⟩

theorem perm (laid : Laid lo hi nodes) (same : nodes.Perm others) : Laid lo hi others where
  le := laid.le
  recorded placed member := laid.recorded placed (same.mem_iff.mpr member)
  above placed member := laid.above placed (same.mem_iff.mpr member)
  below placed member := laid.below placed (same.mem_iff.mpr member)
  apart := laid.apart.perm same fun first => first.symm

end Laid

theorem nodeLen_pos (isLeaf : Bool) : 0 < nodeLen isLeaf := by
  cases isLeaf <;> decide

theorem Laid.readNode_eq {lo hi : Nat} {nodes : List (Nat × SealedNode K I V)}
    (laid : Laid lo hi nodes) {placed : Nat × SealedNode K I V} (member : placed ∈ nodes) :
    readNode nodes placed.2.pointer.pos placed.2.node.isLeaf = some placed.2 := by
  have apart : nodes.reverse.Pairwise fun a b => behind a ≤ b.1 ∨ behind b ≤ a.1 :=
    laid.apart.perm (reverse_perm nodes).symm fun first => first.symm
  have recorded := laid.recorded placed member
  have positive := nodeLen_pos placed.2.node.isLeaf
  rw [← recorded, readNode]
  have inReverse := mem_reverse.mpr member
  generalize nodes.reverse = written at apart inReverse
  have found : written.find? (fun other => decide (other.1 < placed.1 +
      nodeLen placed.2.node.isLeaf ∧ placed.1 < behind other)) = some placed := by
    induction written with
    | nil => cases inReverse
    | cons first rest ih =>
      obtain ⟨fromFirst, apartRest⟩ := pairwise_cons.mp apart
      rcases mem_cons.mp inReverse with rfl | inRest
      · exact find?_cons_of_pos (decide_eq_true
          ⟨Nat.lt_add_of_pos_right positive, Nat.lt_add_of_pos_right positive⟩)
      · have away := fromFirst placed inRest
        have reaches : behind placed = placed.1 + nodeLen placed.2.node.isLeaf := rfl
        rw [find?_cons_of_neg]
        · exact ih apartRest inRest
        · rw [decide_eq_true_eq]
          omega
  rw [found]
  simp

end SwornDisk.C.Bit

import SwornDisk.C.BitTree

/-!
# The contexts of a builder

The contexts of a builder are a stack of trees, the higher ones with the earlier
entries.  A carry and the climb at the end append inner nodes to the output and
keep what the stack holds.
-/

namespace SwornDisk.C.Bit

open List Option

variable {K I V : Type}

def Output.placed (out : Output K I V) : List (Nat × SealedNode K I V) :=
  writeBuffer out.begin out

def Output.top (out : Output K I V) : Nat :=
  out.begin + out.cur

def Output.log (out : Output K I V) : List (SealedNode K I V) :=
  out.placed.map Prod.snd

/-- Drawn before draw `n`. -/
def DrawnBefore (draw : Nat → K × I) (n : Nat) (secret : K × I) : Prop :=
  ∃ m < n, secret = draw m

variable {draw : Nat → K × I} {n m : Nat}

theorem DrawnBefore.mono {secret : K × I} (drawn : DrawnBefore draw n secret) (le : n ≤ m) :
    DrawnBefore draw m secret := by
  obtain ⟨k, before, equal⟩ := drawn
  exact ⟨k, before.trans_le le, equal⟩

/-- The pointers to inner nodes were drawn before draw `n`, and after the pointers
they hold. -/
def KeyOrder (draw : Nat → K × I) (n : Nat) (log : List (SealedNode K I V)) : Prop :=
  ∀ made ∈ log, ∀ children, made.node = .inner children →
    ∃ k < n, made.pointer.secret = draw k ∧
      ∀ child ∈ children, DrawnBefore draw k child.pointer.secret

theorem KeyOrder.mono {log : List (SealedNode K I V)} (order : KeyOrder draw n log) (le : n ≤ m) :
    KeyOrder draw m log := by
  intro made member children isInner
  obtain ⟨k, before, rest⟩ := order made member children isInner
  exact ⟨k, before.trans_le le, rest⟩

variable {more : List (SealedNode K I V)}

theorem KeyOrder.append {log : List (SealedNode K I V)} (left : KeyOrder draw n log)
    (right : KeyOrder draw n more) :
    KeyOrder draw n (log ++ more) := by
  intro made member
  rcases mem_append.mp member with inLeft | inRight
  · exact left made inLeft
  · exact right made inRight

/-- The pointers of a context were drawn before draw `n`. -/
def CtxDrawn (draw : Nat → K × I) (n : Nat) (ctx : Context K I V) : Prop :=
  ∀ made ∈ ctx, DrawnBefore draw n made.pointer.secret

variable {ctx : Context K I V}

theorem CtxDrawn.mono (drawn : CtxDrawn draw n ctx) (le : n ≤ m) : CtxDrawn draw m ctx :=
  fun made member => (drawn made member).mono le

structure Appended (draw : Nat → K × I) (out out' : Output K I V)
    (added : List (Nat × SealedNode K I V)) : Prop where
  begin_eq : out'.begin = out.begin
  file_eq : out'.file = out.file
  draws_le : out.draws ≤ out'.draws
  placed_eq : out'.placed = out.placed ++ added
  laid : Laid out.top out'.top added
  keys : KeyOrder draw out'.draws (added.map Prod.snd)
  inner : ∀ placed ∈ added, placed.2.node.isLeaf = false

variable {lower : Context K I V} {out' : Output K I V} {added : List (Nat × SealedNode K I V)}
  {rest : List (Context K I V)} {made : SealedNode K I V} {above : Context K I V}

section

variable {draw : Nat → K × I} {out : Output K I V}

section

variable (out : Output K I V)

@[simp] theorem placed_bufferFlushIfFull : (bufferFlushIfFull out).placed = out.placed := by
  unfold bufferFlushIfFull
  split
  · simp [Output.placed, writeBuffer]
  · rfl

@[simp] theorem top_bufferFlushIfFull : (bufferFlushIfFull out).top = out.top := by
  unfold bufferFlushIfFull
  split
  · rfl
  · rfl

@[simp] theorem draws_bufferFlushIfFull : (bufferFlushIfFull out).draws = out.draws := by
  unfold bufferFlushIfFull
  split
  · rfl
  · rfl

section

variable (len : Nat)

@[simp] theorem placed_reserve :
    (reserve out len).placed = out.placed := rfl

@[simp] theorem begin_reserve :
    (reserve out len).begin = out.begin := rfl

@[simp] theorem file_reserve :
    (reserve out len).file = out.file := rfl

@[simp] theorem cur_reserve :
    (reserve out len).cur = out.cur + len := rfl

@[simp] theorem draws_reserve :
    (reserve out len).draws = out.draws := rfl

theorem top_reserve : (reserve out len).top = out.top + len :=
  (Nat.add_assoc _ _ _).symm

end

variable (offset : Nat) (pointer : Pointer K I) (leaf : Leaf K I V)

@[simp] theorem top_putLeaf :
    (putLeaf out offset pointer leaf).top = out.top := rfl

theorem placed_putLeaf :
    (putLeaf out offset pointer leaf).placed =
      out.placed ++ [(out.begin + offset, ⟨pointer, .leaf leaf⟩)] := by
  simp [Output.placed, writeBuffer, putLeaf]

end

theorem Appended.refl (draw : Nat → K × I) (out : Output K I V) : Appended draw out out [] where
  begin_eq := rfl
  file_eq := rfl
  draws_le := le_rfl
  placed_eq := (append_nil _).symm
  laid := Laid.nil le_rfl
  keys _ member := absurd member not_mem_nil
  inner _ member := absurd member not_mem_nil

theorem Appended.trans {out'' : Output K I V} {more : List (Nat × SealedNode K I V)}
    (first : Appended draw out out' added) (second : Appended draw out' out'' more) :
    Appended draw out out'' (added ++ more) where
  begin_eq := second.begin_eq.trans first.begin_eq
  file_eq := second.file_eq.trans first.file_eq
  draws_le := first.draws_le.trans second.draws_le
  placed_eq := by rw [second.placed_eq, first.placed_eq, append_assoc]
  laid := first.laid.append second.laid
  keys := by
    rw [map_append]
    exact (first.keys.mono second.draws_le).append second.keys
  inner placed member := (mem_append.mp member).elim (first.inner placed)
    (second.inner placed)

section

variable (appended : Appended draw out out' added)
include appended

theorem Appended.draw_next :
    Appended draw out { out' with draws := out'.draws + 1 } added where
  begin_eq := appended.begin_eq
  file_eq := appended.file_eq
  draws_le := appended.draws_le.trans (Nat.le_succ _)
  placed_eq := appended.placed_eq
  laid := appended.laid
  keys := appended.keys.mono (Nat.le_succ _)
  inner := appended.inner

theorem Appended.drawn (member : made ∈ added.map Prod.snd) :
    ∃ n, made.pointer.secret = draw n := by
  cases isNode : made.node with
  | leaf leaf =>
    obtain ⟨placed, inAdded, rfl⟩ := mem_map.mp member
    have inner := appended.inner placed inAdded
    rw [isNode] at inner
    cases inner
  | inner children =>
    obtain ⟨n, -, drawnAt, -⟩ := appended.keys made member children isNode
    exact ⟨n, drawnAt⟩

theorem Appended.mem_log (member : made ∈ out.log) : made ∈ out'.log := by
  rw [Output.log, appended.placed_eq, map_append]
  exact mem_append_left _ member

end

theorem appended_putInner (drawn : CtxDrawn draw out.draws ctx) :
    Appended draw out (putInner draw out ctx)
      [(out.top, ⟨innerPointer draw out, bitInner ctx⟩)] where
  begin_eq := rfl
  file_eq := rfl
  draws_le := Nat.le_succ _
  placed_eq := by simp [Output.placed, writeBuffer, putInner, Output.top]
  laid := by
    have reaches : (putInner draw out ctx).top = out.top + nodeLen false :=
      (Nat.add_assoc _ _ _).symm
    rw [reaches]
    exact Laid.single ⟨innerPointer draw out, bitInner ctx⟩
  keys := by
    intro made member children isInner
    obtain rfl := mem_singleton.mp member
    refine ⟨out.draws, Nat.lt_succ_self _, rfl, fun child isChild => ?_⟩
    obtain rfl : ctx.map SealedNode.child = children := Node.inner.inj isInner
    obtain ⟨node, inCtx, rfl⟩ := mem_map.mp isChild
    exact drawn node inCtx
  inner placed member := by rw [mem_singleton.mp member]; rfl

theorem mem_log_putInner (draw : Nat → K × I) (out : Output K I V) (ctx : Context K I V) :
    ⟨innerPointer draw out, bitInner ctx⟩ ∈ (putInner draw out ctx).log := by
  simp [Output.log, Output.placed, writeBuffer, putInner]

theorem ctxDrawn_next (drawn : ∀ ctx ∈ lower :: above :: rest, CtxDrawn draw out.draws ctx) :
    ∀ ctx ∈ (above ++ [⟨innerPointer draw out, bitInner lower⟩]) :: rest,
      CtxDrawn draw (putInner draw out lower).draws ctx := by
  have aboveDrawn := drawn above (mem_cons_of_mem _ mem_cons_self)
  refine forall_mem_cons.mpr ⟨fun made member => ?_, fun ctx member => ?_⟩
  · rcases mem_append.mp member with old | new
    · exact (aboveDrawn made old).mono (Nat.le_succ _)
    · rw [mem_singleton.mp new]
      exact ⟨out.draws, Nat.lt_succ_self _, rfl⟩
  · exact (drawn ctx (mem_cons_of_mem _ (mem_cons_of_mem _ member))).mono
      (Nat.le_succ _)

theorem carry_appended (drawn : ∀ ctx ∈ lower :: rest, CtxDrawn draw out.draws ctx) :
    (∃ added, Appended draw out (carry draw out lower rest).1 added) ∧
      (∀ ctx ∈ (carry draw out lower rest).2,
        CtxDrawn draw (carry draw out lower rest).1.draws ctx) ∧
      (carry draw out lower rest).2.length = rest.length + 1 := by
  induction rest generalizing out lower with
  | nil => exact ⟨⟨[], Appended.refl draw out⟩, drawn, rfl⟩
  | cons above rest ih =>
    rw [carry]
    split
    · have first := appended_putInner (drawn lower mem_cons_self)
      obtain ⟨⟨added, second⟩, after, length⟩ := ih (ctxDrawn_next drawn)
      refine ⟨⟨_, first.trans second⟩, ?_, by rw [length_cons, length, length_cons]⟩
      exact forall_mem_cons.mpr ⟨fun made member => absurd member not_mem_nil, after⟩
    · exact ⟨⟨[], Appended.refl draw out⟩, drawn, rfl⟩

end

/-- The nodes of a context hold `parts`. -/
def Holds (log : List (SealedNode K I V)) (height : Nat) (ctx : Context K I V)
    (parts : List (List (Nat × V))) : Prop :=
  List.Forall₂ (Subtree log height) (ctx.map SealedNode.child) parts

/-- Contexts from a height on hold `entries` in complete trees, the higher contexts
the earlier ones. -/
def Stack (log : List (SealedNode K I V)) : Nat → List (Context K I V) → List (Nat × V) → Prop
  | _, [], entries => entries = []
  | height, ctx :: above, entries => ∃ earlier parts, Stack log (height + 1) above earlier ∧
      Holds log height ctx parts ∧
      (∀ part ∈ parts, part.length = bitLeafLen * bitDegree ^ height) ∧
      entries = earlier ++ parts.flatten

variable {height : Nat} {parts : List (List (Nat × V))} {entries : List (Nat × V)}
  {contexts : List (Context K I V)} {out : Output K I V}
  {pointer : Pointer K I} {earlier : List (Nat × V)}

section

variable {draw : Nat → K × I} {log : List (SealedNode K I V)}

section

variable (subset : ∀ made ∈ log, made ∈ more)
include subset

theorem Subtree.mono {child : Child K I} (tree : Subtree log height child entries) :
    Subtree more height child entries := by
  induction height generalizing child entries with
  | zero =>
    obtain ⟨isLeaf, ends, next, member⟩ := tree
    exact ⟨isLeaf, ends, next, subset _ member⟩
  | succ height ih =>
    obtain ⟨isInner, ends, children, parts, member, trees, equal⟩ := tree
    exact ⟨isInner, ends, children, parts, subset _ member, trees.imp fun _ _ => ih, equal⟩

theorem Holds.mono (holds : Holds log height ctx parts) : Holds more height ctx parts :=
  Forall₂.imp (fun _ _ => Subtree.mono subset) holds

theorem Stack.mono (stack : Stack log height contexts entries) :
    Stack more height contexts entries := by
  induction contexts generalizing height entries with
  | nil => exact stack
  | cons ctx above ih =>
    obtain ⟨earlier, parts, upper, holds, sizes, equal⟩ := stack
    exact ⟨earlier, parts, ih upper, holds.mono subset, sizes, equal⟩

end

theorem EndsWith.append {before : List (Nat × V)} {key : Nat} (ends : EndsWith entries key) :
    EndsWith (before ++ entries) key := by
  obtain ⟨last, isLast, rfl⟩ := map_eq_some_iff.mp ends
  rw [EndsWith, getLast?_append, isLast]
  rfl

theorem endsWith_of_forall₂ {children : List (Child K I)}
    (trees : Forall₂ (Subtree log height) children parts) {last : Child K I}
    (isLast : children.getLast? = some last) :
    EndsWith parts.flatten last.key := by
  induction trees with
  | nil => cases isLast
  | @cons child part children parts tree trees ih =>
    rw [flatten_cons]
    cases children with
    | nil =>
      obtain rfl : child = last := by simpa using isLast
      cases trees
      rw [flatten_nil, append_nil]
      exact tree.endsWith
    | cons next rest =>
      rw [getLast?_cons_cons] at isLast
      exact (ih isLast).append

theorem Holds.push (holds : Holds log height ctx parts) (nonempty : ctx ≠ [])
    (member : ⟨pointer, bitInner ctx⟩ ∈ log) :
    Subtree log (height + 1) (SealedNode.child ⟨pointer, bitInner ctx⟩) parts.flatten := by
  refine ⟨rfl, ?_, ctx.map SealedNode.child, parts, member, holds, rfl⟩
  have isLast : (ctx.map SealedNode.child).getLast? = some (ctx.getLast nonempty).child := by
    rw [getLast?_map, getLast?_eq_some_getLast nonempty]
    rfl
  have keyEq : (SealedNode.child ⟨pointer, bitInner ctx⟩).key =
      (ctx.getLast nonempty).child.key := by
    simp [SealedNode.child, bitInner, Node.lastKey, getLast?_eq_some_getLast nonempty]
  rw [keyEq]
  exact endsWith_of_forall₂ holds isLast

theorem Holds.pushed {held : List (List (Nat × V))}
    (aboveHolds : Holds log (height + 1) above held)
    (tree : Subtree log (height + 1) (SealedNode.child ⟨pointer, bitInner ctx⟩) parts.flatten) :
    Holds log (height + 1) (above ++ [⟨pointer, bitInner ctx⟩]) (held ++ [parts.flatten]) := by
  unfold Holds
  rw [map_append]
  exact rel_append aboveHolds (.cons tree .nil)

theorem length_flatten_of_sizes {size : Nat} (sizes : ∀ part ∈ parts, part.length = size) :
    parts.flatten.length = parts.length * size := by
  induction parts with
  | nil => simp
  | cons part parts ih =>
    rw [flatten_cons, length_append, sizes part mem_cons_self,
      ih fun other member => sizes other (mem_cons_of_mem _ member), length_cons]
    ring

theorem carry_stack (drawn : ∀ ctx ∈ lower :: rest, CtxDrawn draw out.draws ctx)
    (recorded : ∀ made ∈ (carry draw out lower rest).1.log, made ∈ log)
    (holds : Holds log height lower parts)
    (sizes : ∀ part ∈ parts, part.length = bitLeafLen * bitDegree ^ height)
    (upper : Stack log (height + 1) rest earlier) :
    Stack log height (carry draw out lower rest).2 (earlier ++ parts.flatten) := by
  induction rest generalizing out lower height earlier parts with
  | nil => exact ⟨earlier, parts, upper, holds, sizes, rfl⟩
  | cons above rest ih =>
    rw [carry] at recorded ⊢
    split
    · rename_i full
      rw [if_pos full] at recorded
      simp only at recorded
      obtain ⟨earliest, held, top, aboveHolds, aboveSizes, rfl⟩ := upper
      have drawnNext := ctxDrawn_next drawn
      obtain ⟨⟨added, second⟩, -, -⟩ := carry_appended drawnNext
      have nonempty : lower ≠ [] := by
        rintro rfl
        cases full
      have tree := holds.push nonempty (recorded _ (second.mem_log (mem_log_putInner ..)))
      have count : parts.length = bitDegree := by
        rw [← holds.length_eq, length_map, full]
      have pushedSizes : ∀ part ∈ held ++ [parts.flatten],
          part.length = bitLeafLen * bitDegree ^ (height + 1) := by
        intro part member
        rcases mem_append.mp member with old | new
        · exact aboveSizes part old
        · rw [mem_singleton.mp new, length_flatten_of_sizes sizes, count, pow_succ]
          ring
      exact ⟨_, [], ih drawnNext recorded (aboveHolds.pushed tree) pushedSizes top, .nil,
        by simp, by simp⟩
    · exact ⟨earlier, parts, upper, holds, sizes, rfl⟩

theorem Stack.last_eq_nil (stack : Stack log height contexts entries)
    (few : entries.length < bitLeafLen * bitDegree ^ (height + contexts.length - 1)) :
    contexts.getLastD [] = [] := by
  induction contexts generalizing height entries with
  | nil => rfl
  | cons ctx above ih =>
    obtain ⟨earlier, parts, upper, holds, sizes, rfl⟩ := stack
    cases above with
    | nil =>
      have total := length_flatten_of_sizes sizes
      rw [show height + [ctx].length - 1 = height from rfl, length_append, total] at few
      have none : parts.length = 0 := by
        by_contra some
        have := Nat.le_mul_of_pos_left (bitLeafLen * bitDegree ^ height)
          (Nat.pos_of_ne_zero some)
        omega
      have empty : ctx.length = 0 := by
        rw [← length_map, holds.length_eq, none]
      exact length_eq_zero_iff.mp empty
    | cons second rest =>
      have deeper := ih upper (by
        rw [length_append] at few
        have same : height + 1 + (second :: rest).length - 1 =
          height + (ctx :: second :: rest).length - 1 := by
          simp only [length_cons]
          omega
        rw [same]
        omega)
      exact deeper

theorem Stack.dvd_length (stack : Stack log height contexts entries) :
    bitLeafLen ∣ entries.length := by
  induction contexts generalizing height entries with
  | nil =>
    obtain rfl : entries = [] := stack
    exact dvd_zero _
  | cons ctx above ih =>
    obtain ⟨earlier, parts, upper, -, sizes, rfl⟩ := stack
    rw [length_append, length_flatten_of_sizes sizes]
    exact (ih upper).add ((Nat.dvd_mul_right _ _).mul_left _)

end

/-- The node sealed last is the root of a tree that holds `entries`. -/
structure IsRoot (draw : Nat → K × I) (log : List (SealedNode K I V)) (height : Nat)
    (out : Output K I V) (made : SealedNode K I V) (entries : List (Nat × V)) : Prop where
  drawn : DrawnBefore draw out.draws made.pointer.secret
  last : made.pointer.pos + bitInnerNodeSize = out.top
  inner : made.node.isLeaf = false
  tree : Subtree log height made.child entries

section

variable {draw : Nat → K × I} {log : List (SealedNode K I V)}

theorem climb_appended (drawn : ∀ ctx ∈ lower :: rest, CtxDrawn draw out.draws ctx) :
    ∃ added, Appended draw out (climb draw out lower rest).1 added := by
  induction rest generalizing out lower with
  | nil => exact ⟨[], Appended.refl draw out⟩
  | cons above rest ih =>
    rw [climb]
    split
    · exact ih fun ctx member => drawn ctx (mem_cons_of_mem _ member)
    · obtain ⟨added, second⟩ := ih (ctxDrawn_next drawn)
      exact ⟨_, (appended_putInner (drawn lower mem_cons_self)).trans second⟩

section

variable (draw : Nat → K × I) (out : Output K I V) (lower : Context K I V)
  (rest : List (Context K I V))

theorem cur_climb_le :
    (climb draw out lower rest).1.cur ≤ out.cur + rest.length * bitInnerNodeSize := by
  induction rest generalizing out lower with
  | nil => exact Nat.le_add_right _ _
  | cons above rest ih =>
    rw [climb, length_cons, Nat.succ_mul]
    split
    · exact (ih out above).trans (by omega)
    · refine (ih _ _).trans ?_
      have grown : (putInner draw out lower).cur = out.cur + bitInnerNodeSize := rfl
      omega

theorem le_cur_climb : out.cur ≤ (climb draw out lower rest).1.cur := by
  induction rest generalizing out lower with
  | nil => exact le_rfl
  | cons above rest ih =>
    rw [climb]
    split
    · exact ih out above
    · exact (Nat.le_add_right _ _).trans (ih (putInner draw out lower) _)

end

theorem Holds.parts_eq_nil (holds : Holds log height ([] : Context K I V) parts) : parts = [] :=
  forall₂_nil_left_iff.mp holds

theorem climb_root (drawn : ∀ ctx ∈ lower :: rest, CtxDrawn draw out.draws ctx)
    (recorded : ∀ made ∈ (climb draw out lower rest).1.log, made ∈ log)
    (holds : Holds log height lower parts) (upper : Stack log (height + 1) rest earlier)
    (lastEmpty : rest.getLast? = some []) :
    (earlier ++ parts.flatten = [] ∧ climb draw out lower rest = (out, [])) ∨
      ∃ made, (climb draw out lower rest).2 = [made] ∧
        out.cur + bitInnerNodeSize ≤ (climb draw out lower rest).1.cur ∧
        IsRoot draw log (height + rest.length) (climb draw out lower rest).1 made
          (earlier ++ parts.flatten) := by
  induction rest generalizing out lower height earlier parts with
  | nil => cases lastEmpty
  | cons above rest ih =>
    obtain ⟨earliest, held, top, aboveHolds, aboveSizes, rfl⟩ := upper
    have depth : height + (above :: rest).length = height + 1 + rest.length := by
      rw [length_cons]
      omega
    rw [depth]
    by_cases empty : lower = []
    · subst empty
      obtain rfl := holds.parts_eq_nil
      rw [climb, if_pos length_nil] at recorded ⊢
      rw [flatten_nil, append_nil]
      cases rest with
      | nil =>
        obtain rfl : above = [] := by simpa using lastEmpty
        obtain rfl := aboveHolds.parts_eq_nil
        obtain rfl : earliest = [] := top
        exact .inl ⟨rfl, rfl⟩
      | cons second rest =>
        rw [getLast?_cons_cons] at lastEmpty
        exact ih (fun ctx member => drawn ctx (mem_cons_of_mem _ member)) recorded aboveHolds
          top lastEmpty
    · rw [climb, if_neg fun none => empty (length_eq_zero_iff.mp none)] at recorded ⊢
      have drawnNext := ctxDrawn_next drawn
      obtain ⟨added, second⟩ := climb_appended drawnNext
      have tree := holds.push empty (recorded _ (second.mem_log (mem_log_putInner ..)))
      have allEntries : earliest ++ (held ++ [parts.flatten]).flatten =
          earliest ++ held.flatten ++ parts.flatten := by simp
      cases rest with
      | nil =>
        obtain rfl : above = [] := by simpa using lastEmpty
        obtain rfl := aboveHolds.parts_eq_nil
        obtain rfl : earliest = [] := top
        exact .inr ⟨_, rfl, le_rfl, ⟨out.draws, Nat.lt_succ_self _, rfl⟩,
          Nat.add_assoc _ _ _, rfl, tree⟩
      | cons next rest =>
        rw [getLast?_cons_cons] at lastEmpty
        have result := ih drawnNext recorded (aboveHolds.pushed tree) top lastEmpty
        rw [allEntries] at result
        rcases result with ⟨nothing, -⟩ | ⟨made, one, -, isRoot⟩
        · obtain ⟨val, member⟩ := tree.endsWith.mem
          rw [(append_eq_nil_iff.mp nothing).2] at member
          cases member
        · exact .inr ⟨made, one, le_cur_climb draw (putInner draw out lower) _ _, isRoot⟩

end

end SwornDisk.C.Bit

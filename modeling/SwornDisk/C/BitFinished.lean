import SwornDisk.C.BitContexts

/-!
# Finished block index table files

What a builder has put out after any number of entries, and what
`bit_builder_complete` makes of it: one root over all full leaves, a trailing leaf
beside it, and the buffer written to where it began.
-/

namespace SwornDisk.C.Bit

open List Function

variable {K I V : Type}

/-! ## The builder -/

/-- What a builder that started at `begin` keeps true of its output and contexts. -/
structure Sealing (draw : Nat → K × I) (begin : Nat) (b : Builder K I V) : Prop where
  laid : Laid begin b.out.top b.out.placed
  keys : KeyOrder draw b.out.draws b.out.log
  nodesDrawn : ∀ made ∈ b.out.log, ∃ n, made.pointer.secret = draw n
  drawn : ∀ ctx ∈ b.ctx, CtxDrawn draw b.out.draws ctx
  nextDrawn : DrawnBefore draw b.out.draws b.next
  height : b.ctx.length = builderHeight

/-- In addition, after `entries`: where they are. -/
structure Building (draw : Nat → K × I) (begin : Nat) (b : Builder K I V)
    (entries : List (Nat × V)) : Prop extends Sealing draw begin b where
  leaves : ∀ made ∈ b.out.log, ∀ leaf, made.node = .leaf leaf →
    ∀ entry ∈ leaf.entries, entry ∈ entries
  short : b.curLeaf.length < bitLeafLen
  stack : ∃ done, Stack b.out.log 0 b.ctx done ∧ entries = done ++ b.curLeaf
  filter : ∀ entry ∈ entries, bloomFilterContains b.filter entry.1 = true

variable {bits : Nat → Bool} {key offset : Nat}

section

theorem update_true_mono {other : Nat} (set : bits other = true) :
    update bits offset true other = true := by
  by_cases same : other = offset
  · rw [same, update_self]
  · rw [update_of_ne same]
    exact set

theorem bloomFilterAdd_of_set (key : Nat) (set : bits offset = true) :
    bloomFilterAdd bits key offset = true := by
  unfold bloomFilterAdd
  generalize bloomHashFuncs = funcs
  induction funcs generalizing bits with
  | nil => exact set
  | cons func funcs ih => exact ih (update_true_mono set)

theorem bloomFilterContains_add_self (bits : Nat → Bool) (key : Nat) :
    bloomFilterContains (bloomFilterAdd bits key) key = true := by
  simp only [bloomFilterContains, bloomFilterAdd, bloomHashFuncs, all_cons, all_nil,
    foldl_cons, foldl_nil, Bool.and_true, Bool.and_eq_true]
  refine ⟨update_true_mono (update_true_mono ?_), update_true_mono ?_, ?_⟩
  · exact update_self _ _ _
  · exact update_self _ _ _
  · exact update_self _ _ _

theorem bloomFilterContains_add (other : Nat) (contains : bloomFilterContains bits key = true) :
    bloomFilterContains (bloomFilterAdd bits other) key = true := by
  rw [bloomFilterContains, all_eq_true] at contains ⊢
  exact fun func member => bloomFilterAdd_of_set other (contains func member)

end

variable {out out' : Output K I V} {inner : List (Nat × SealedNode K I V)} {leaf : Leaf K I V}
  {log : List (SealedNode K I V)} {added done : List (Nat × V)}

section

variable {draw : Nat → K × I} (blank : K × I) {begin : Nat} {b : Builder K I V}
  {entries : List (Nat × V)}

theorem stack_replicate (log : List (SealedNode K I V)) (height count : Nat) :
    Stack log height (replicate count []) [] := by
  induction count generalizing height with
  | zero => rfl
  | succ count ih => exact ⟨[], [], ih (height + 1), .nil, by simp, rfl⟩

theorem building_init (draw : Nat → K × I) (begin : Nat) :
    Building draw begin (builderInit draw begin : Builder K I V) [] where
  laid := Laid.nil le_rfl
  keys _ member := absurd member not_mem_nil
  nodesDrawn _ member := absurd member not_mem_nil
  leaves _ member := absurd member not_mem_nil
  drawn ctx member made inCtx := by
    rw [eq_of_mem_replicate member] at inCtx
    cases inCtx
  nextDrawn := ⟨0, Nat.zero_lt_one, rfl⟩
  height := length_replicate
  short := Nat.succ_pos _
  stack := ⟨[], stack_replicate _ 0 builderHeight, rfl⟩
  filter _ member := absurd member not_mem_nil

theorem Laid.insert {lo mid hi : Nat} {before after : List (Nat × SealedNode K I V)}
    (made : SealedNode K I V) (left : Laid lo made.pointer.pos before)
    (reaches : made.pointer.pos + nodeLen made.node.isLeaf = mid) (right : Laid mid hi after) :
    Laid lo hi (before ++ after ++ [(made.pointer.pos, made)]) := by
  subst reaches
  have inOrder := (left.append (Laid.single made)).append right
  apply inOrder.perm
  rw [append_assoc, append_assoc]
  exact Perm.append_left before perm_append_comm

@[simp] theorem log_reserve (out : Output K I V) (len : Nat) : (reserve out len).log = out.log :=
  rfl

@[simp] theorem log_bufferFlushIfFull (out : Output K I V) :
    (bufferFlushIfFull out).log = out.log := by
  rw [Output.log, placed_bufferFlushIfFull, Output.log]

theorem Appended.log_eq (appended : Appended draw out out' inner) :
    out'.log = out.log ++ inner.map Prod.snd := by
  rw [Output.log, appended.placed_eq, map_append]
  rfl

theorem Sealing.appended (sealing : Sealing draw begin b) {start : Output K I V}
    (appended : Appended draw start out inner) (draws : start.draws = b.out.draws)
    (log : start.log = b.out.log) :
    KeyOrder draw out.draws out.log ∧ ∀ made ∈ out.log, ∃ n, made.pointer.secret = draw n := by
  rw [appended.log_eq, log]
  constructor
  · exact (sealing.keys.mono (draws ▸ appended.draws_le)).append appended.keys
  · exact fun made member => (mem_append.mp member).elim (sealing.nodesDrawn made)
      appended.drawn

theorem Sealing.leafPut (sealing : Sealing draw begin b) {put : Output K I V}
    (appended : Appended draw (reserve (bufferFlushIfFull b.out) bitLeafNodeSize) out inner)
    (isPut : putLeaf out (bufferFlushIfFull b.out).cur (leafPointer b) leaf = put) :
    put.placed = b.out.placed ++ inner ++ [(b.out.top, ⟨leafPointer b, .leaf leaf⟩)] ∧
      put.log = out.log ++ [⟨leafPointer b, .leaf leaf⟩] ∧ Laid begin put.top put.placed ∧
      KeyOrder draw put.draws put.log ∧
      ∀ made ∈ put.log, ∃ n, made.pointer.secret = draw n := by
  have position : out.begin + (bufferFlushIfFull b.out).cur = b.out.top := by
    rw [appended.begin_eq, begin_reserve, ← top_bufferFlushIfFull b.out, Output.top]
  have laid := appended.laid
  rw [top_reserve, top_bufferFlushIfFull] at laid
  have placed : put.placed =
      b.out.placed ++ inner ++ [(b.out.top, ⟨leafPointer b, .leaf leaf⟩)] := by
    rw [← isPut, placed_putLeaf, position, appended.placed_eq, placed_reserve,
      placed_bufferFlushIfFull]
  have log : put.log = out.log ++ [⟨leafPointer b, .leaf leaf⟩] := by
    rw [← isPut, Output.log, placed_putLeaf, map_append]
    rfl
  obtain ⟨keys, drawn⟩ := sealing.appended appended (by simp) (by simp)
  have drawsEq : put.draws = out.draws := by
    rw [← isPut]
    rfl
  refine ⟨placed, log, ?_, ?_, ?_⟩
  · rw [placed, ← isPut]
    exact Laid.insert ⟨leafPointer b, .leaf leaf⟩ sealing.laid rfl laid
  · rw [log, drawsEq]
    refine keys.append fun made member children isInner => ?_
    rw [mem_singleton.mp member] at isInner
    cases isInner
  · rw [log]
    refine forall_mem_append.mpr ⟨drawn, forall_mem_singleton.mpr ?_⟩
    obtain ⟨n, -, drawnAt⟩ := sealing.nextDrawn
    exact ⟨n, drawnAt⟩

theorem Appended.mem_of_leaf (appended : Appended draw out out' inner) {made : SealedNode K I V}
    (member : made ∈ out'.log) (isLeaf : made.node = .leaf leaf) : made ∈ out.log := by
  rw [appended.log_eq] at member
  refine (mem_append.mp member).elim id fun new => ?_
  obtain ⟨placed, inInner, rfl⟩ := mem_map.mp new
  have notLeaf := appended.inner placed inInner
  rw [isLeaf] at notLeaf
  cases notLeaf

theorem Holds.pushLeaf {ctx : Context K I V} {parts : List (List (Nat × V))}
    (holds : Holds log 0 ctx parts) {pointer next : Pointer K I} (ends : EndsWith added key)
    (member : ⟨pointer, .leaf ⟨added, next⟩⟩ ∈ log) (other : Pointer K I) :
    Holds log 0 (ctx ++ [⟨pointer, .leaf ⟨added, other⟩⟩]) (parts ++ [added]) := by
  unfold Holds
  rw [map_append]
  refine rel_append holds (.cons ⟨rfl, ?_, next, member⟩ .nil)
  obtain ⟨last, isLast, -⟩ := Option.map_eq_some_iff.mp ends
  simp [EndsWith, SealedNode.child, Node.lastKey, isLast]

theorem addLeaf_eq (draw : Nat → K × I) {lowest : Context K I V} {rest : List (Context K I V)}
    (ctxEq : b.ctx = lowest :: rest) (added : List (Nat × V)) :
    ∃ carried, carry draw (reserve (bufferFlushIfFull b.out) bitLeafNodeSize)
        (lowest ++ [⟨leafPointer b, .leaf ⟨added, ⟨0, blank.1, blank.2⟩⟩⟩]) rest = carried ∧
      addLeaf draw blank b added = { b with
        out := putLeaf { carried.1 with draws := carried.1.draws + 1 }
          (bufferFlushIfFull b.out).cur (leafPointer b)
          ⟨added, ⟨carried.1.begin + carried.1.cur, (draw carried.1.draws).1,
            (draw carried.1.draws).2⟩⟩
        ctx := carried.2
        next := draw carried.1.draws
        curLeaf := [] } := by
  refine ⟨_, rfl, ?_⟩
  unfold addLeaf
  rw [ctxEq]
  rfl

/-- A full leaf is sealed, with the inner nodes of its carry before it in the log,
and what the contexts hold grows by its entries. -/
theorem Sealing.leafAdded (sealing : Sealing draw begin b) (full : added.length = bitLeafLen)
    (ends : EndsWith added key) (stack : Stack b.out.log 0 b.ctx done) :
    Sealing draw begin (addLeaf draw blank b added) ∧
      Stack (addLeaf draw blank b added).out.log 0 (addLeaf draw blank b added).ctx
        (done ++ added) ∧
      ∀ made ∈ (addLeaf draw blank b added).out.log, ∀ leaf, made.node = .leaf leaf →
        made ∈ b.out.log ∨ leaf.entries = added := by
  obtain ⟨lowest, rest, ctxEq⟩ : ∃ lowest rest, b.ctx = lowest :: rest := by
    apply exists_cons_of_length_pos
    rw [sealing.height, builderHeight_eq]
    exact Nat.succ_pos _
  obtain ⟨carried, carriedEq, result⟩ := addLeaf_eq blank draw ctxEq added
  have drawn := sealing.drawn
  rw [ctxEq] at drawn stack
  obtain ⟨earlier, parts, upper, holds, sizes, rfl⟩ := stack
  have pushedDrawn : ∀ ctx ∈ (lowest ++ [⟨leafPointer b, .leaf ⟨added, ⟨0, blank.1,
      blank.2⟩⟩⟩]) :: rest, CtxDrawn draw
      (reserve (bufferFlushIfFull b.out) bitLeafNodeSize).draws ctx := by
    rw [draws_reserve, draws_bufferFlushIfFull]
    refine forall_mem_cons.mpr ⟨fun made member => ?_, fun ctx member =>
      drawn ctx (mem_cons_of_mem _ member)⟩
    rcases mem_append.mp member with old | new
    · exact drawn lowest mem_cons_self made old
    · rw [mem_singleton.mp new]
      exact sealing.nextDrawn
  obtain ⟨⟨inner, appended⟩, drawnAfter, lengthAfter⟩ := carry_appended pushedDrawn
  rw [carriedEq] at appended drawnAfter lengthAfter
  generalize (⟨carried.1.begin + carried.1.cur, (draw carried.1.draws).1,
    (draw carried.1.draws).2⟩ : Pointer K I) = next at result
  rw [result]
  generalize outEq : putLeaf { carried.1 with draws := carried.1.draws + 1 }
    (bufferFlushIfFull b.out).cur (leafPointer b) ⟨added, next⟩ = out
  obtain ⟨-, log, laid, keys, nodesDrawn⟩ := sealing.leafPut appended.draw_next outEq
  have drawsEq : out.draws = carried.1.draws + 1 := by
    rw [← outEq]
    rfl
  have recorded : ∀ made ∈ carried.1.log, made ∈ out.log := by
    intro made member
    rw [log]
    exact mem_append_left _ member
  have oldRecorded : ∀ made ∈ b.out.log, made ∈ out.log := fun made member =>
    recorded made (appended.mem_log (by simpa using member))
  have leafRecorded : (⟨leafPointer b, .leaf ⟨added, next⟩⟩ : SealedNode K I V) ∈ out.log := by
    rw [log]
    exact mem_append_right _ mem_cons_self
  refine ⟨⟨laid, keys, nodesDrawn, ?_, ?_, ?_⟩, ?_, ?_⟩
  · exact fun ctx member => (drawnAfter ctx member).mono (drawsEq ▸ Nat.le_succ _)
  · exact ⟨carried.1.draws, drawsEq ▸ Nat.lt_succ_self _, rfl⟩
  · change carried.2.length = builderHeight
    rw [lengthAfter, ← sealing.height, ctxEq, length_cons]
  · have holdsAfter := (holds.mono oldRecorded).pushLeaf ends leafRecorded ⟨0, blank.1, blank.2⟩
    have stacked := carry_stack pushedDrawn (by rw [carriedEq]; exact recorded) holdsAfter
      (by
        intro part member
        rcases mem_append.mp member with old | new
        · exact sizes part old
        · rw [mem_singleton.mp new, full, pow_zero, Nat.mul_one])
      (upper.mono oldRecorded)
    rw [carriedEq, flatten_append, flatten_singleton, ← append_assoc] at stacked
    exact stacked
  · intro made member leaf isLeaf
    change made ∈ out.log at member
    rw [log] at member
    rcases mem_append.mp member with before | isNew
    · exact .inl (by simpa using appended.mem_of_leaf before isLeaf)
    · rw [mem_singleton.mp isNew] at isLeaf
      cases isLeaf
      exact .inr rfl

theorem Building.addEntry (building : Building draw begin b entries) (entry : Nat × V) :
    Building draw begin (addEntry draw blank b entry) (entries ++ [entry]) := by
  obtain ⟨done, stack, equal⟩ := building.stack
  have filter : ∀ other ∈ entries ++ [entry],
      bloomFilterContains (bloomFilterAdd b.filter entry.1) other.1 = true := by
    intro other member
    rcases mem_append.mp member with old | new
    · exact bloomFilterContains_add entry.1 (building.filter other old)
    · rw [mem_singleton.mp new]
      exact bloomFilterContains_add_self b.filter entry.1
  have leaves : ∀ made ∈ b.out.log, ∀ leaf, made.node = .leaf leaf →
      ∀ other ∈ leaf.entries, other ∈ entries ++ [entry] :=
    fun made member leaf isLeaf other held =>
      mem_append_left _ (building.leaves made member leaf isLeaf other held)
  have sealing := building.toSealing
  have joined : entries ++ [entry] = done ++ (b.curLeaf ++ [entry]) := by
    rw [equal, append_assoc]
  unfold Bit.addEntry
  simp only
  split
  · rename_i short
    exact { laid := sealing.laid, keys := sealing.keys, nodesDrawn := sealing.nodesDrawn,
            drawn := sealing.drawn, nextDrawn := sealing.nextDrawn, height := sealing.height,
            leaves := leaves, short := short, stack := ⟨done, stack, joined⟩, filter := filter }
  · rename_i full
    have length : (b.curLeaf ++ [entry]).length = bitLeafLen := by
      have short := building.short
      rw [length_append, length_singleton] at full ⊢
      omega
    have ends : EndsWith (b.curLeaf ++ [entry]) entry.1 := by
      simp [EndsWith]
    -- the bookkeeping of the entry touches neither output nor contexts
    have sealingNext : Sealing draw begin { b with
        firstKey := b.firstKey.or (some entry.1)
        lastKey := entry.1
        size := b.size + 1
        filter := bloomFilterAdd b.filter entry.1
        curLeaf := b.curLeaf ++ [entry] } :=
      ⟨sealing.laid, sealing.keys, sealing.nodesDrawn, sealing.drawn, sealing.nextDrawn,
        sealing.height⟩
    obtain ⟨after, stackAfter, fresh⟩ := sealingNext.leafAdded blank length ends stack
    refine { toSealing := after, leaves := ?_, short := Nat.succ_pos _,
             stack := ⟨_, stackAfter, ?_⟩, filter := filter }
    · intro made member leaf isLeaf other held
      rcases fresh made member leaf isLeaf with old | new
      · exact leaves made old leaf isLeaf other held
      · rw [joined]
        exact mem_append_right _ (new ▸ held)
    · exact joined.trans (append_nil _).symm

theorem building_builderWith (draw : Nat → K × I) (begin : Nat) (entries : List (Nat × V)) :
    Building draw begin (builderWith draw blank begin entries) entries := by
  induction entries using reverseRecOn with
  | nil => exact building_init draw begin
  | append_singleton entries entry ih =>
    rw [builderWith, foldl_append]
    exact ih.addEntry blank entry

/-- The filter of a file lets every key through that the builder was given. -/
theorem filter_accepts (draw : Nat → K × I) (begin : Nat) (entries : List (Nat × V)) :
    entries.all fun entry =>
      bloomFilterContains (buildFile draw blank begin entries).filter entry.1 :=
  all_eq_true.mpr (building_builderWith blank draw begin entries).filter

end

/-! ## The finished tree -/

/-- What `bit_builder_complete` leaves in the buffer and in the last context, when
the contexts held `done`. -/
structure TreeFinished (draw : Nat → K × I) (begin : Nat) (b : Builder K I V)
    (entries done : List (Nat × V)) (out : Output K I V) (top : Context K I V) : Prop where
  begin_eq : out.begin = (bufferFlushIfFull b.out).begin
  file_eq : out.file = (bufferFlushIfFull b.out).file
  cur_le : out.cur ≤ (bufferFlushIfFull b.out).cur + bitLeafNodeSize +
    builderHeight * bitInnerNodeSize
  grown : entries ≠ [] → (bufferFlushIfFull b.out).cur + bitInnerNodeSize ≤ out.cur
  laid : Laid begin out.top out.placed
  keys : KeyOrder draw out.draws out.log
  nodesDrawn : ∀ made ∈ out.log, ∃ n, made.pointer.secret = draw n
  leaves : ∀ made ∈ out.log, ∀ leaf, made.node = .leaf leaf →
    ∀ entry ∈ leaf.entries, entry ∈ entries
  root : (done = [] ∧ top = []) ∨ ∃ made, top = [made] ∧
    IsRoot draw out.log (builderHeight - 1) out made done
  alone : done = [] → b.curLeaf ≠ [] → ∃ leaf, out.top = b.out.top + bitLeafNodeSize ∧
    out.placed = b.out.placed ++ [(b.out.top, ⟨leafPointer b, .leaf leaf⟩)]

section

variable {draw : Nat → K × I} (blank : K × I) {begin : Nat} {b : Builder K I V}
  {entries : List (Nat × V)}

theorem Stack.last_of_capacity {contexts : List (Context K I V)}
    (stack : Stack log 0 contexts done) (height : contexts.length = builderHeight)
    (within : done.length ≤ defaultLsmFileCapacity) :
    contexts.getLast? = some [] := by
  have few : done.length < bitLeafLen * bitDegree ^ (0 + contexts.length - 1) := by
    rw [height, builderHeight_eq]
    exact within.trans_lt (by decide +kernel)
  have empty := stack.last_eq_nil few
  cases contexts with
  | nil =>
    rw [builderHeight_eq] at height
    cases height
  | cons ctx above =>
    rw [getLastD_eq_getLast?, getLast?_cons, Option.getD_some] at empty
    rw [getLast?_cons, empty]

theorem Building.treeFinished (building : Building draw begin b entries)
    (within : entries.length ≤ defaultLsmFileCapacity) :
    ∃ done, entries = done ++ b.curLeaf ∧ bitLeafLen ∣ done.length ∧
      TreeFinished draw begin b entries done (finishTree draw blank b).1
        (finishTree draw blank b).2 := by
  obtain ⟨done, stack, equal⟩ := building.stack
  have doneWithin : done.length ≤ defaultLsmFileCapacity := by
    rw [equal, length_append] at within
    omega
  have lastEmpty := stack.last_of_capacity building.height doneWithin
  have whole := stack.dvd_length
  obtain ⟨lowest, rest, ctxEq⟩ : ∃ lowest rest, b.ctx = lowest :: rest := by
    apply exists_cons_of_length_pos
    rw [building.height, builderHeight_eq]
    exact Nat.succ_pos _
  have height : 0 + rest.length = builderHeight - 1 := by
    rw [← building.height, ctxEq, length_cons]
    omega
  have drawn := building.drawn
  rw [ctxEq] at drawn stack lastEmpty
  have lastOfRest : rest.getLast? = some [] := by
    cases rest with
    | nil =>
      rw [builderHeight_eq] at height
      cases height
    | cons second rest => rwa [getLast?_cons_cons] at lastEmpty
  obtain ⟨earlier, parts, upper, holds, sizes, rfl⟩ := stack
  refine ⟨_, equal, whole, ?_⟩
  unfold finishTree
  rw [ctxEq, headD_cons, tail_cons]
  simp only
  split
  · rename_i noTrailing
    have drawnHere : ∀ ctx ∈ lowest :: rest, CtxDrawn draw (bufferFlushIfFull b.out).draws ctx := by
      rw [draws_bufferFlushIfFull]
      exact drawn
    obtain ⟨inner, appended⟩ := climb_appended drawnHere
    have sealed := building.appended appended (draws_bufferFlushIfFull _) (log_bufferFlushIfFull _)
    have recorded : ∀ made ∈ b.out.log,
        made ∈ (climb draw (bufferFlushIfFull b.out) lowest rest).1.log := fun made member =>
      appended.mem_log (by rw [log_bufferFlushIfFull]; exact member)
    have rooted := climb_root drawnHere (fun made member => member) (holds.mono recorded)
      (upper.mono recorded) lastOfRest
    rw [height] at rooted
    have cur := cur_climb_le draw (bufferFlushIfFull b.out) lowest rest
    generalize climb draw (bufferFlushIfFull b.out) lowest rest = climbed at *
    refine ⟨appended.begin_eq, appended.file_eq, cur.trans ?_, ?_, ?_, ?_, ?_, ?_, ?_, ?_⟩
    · have few : rest.length * bitInnerNodeSize ≤ builderHeight * bitInnerNodeSize :=
        Nat.mul_le_mul_right _ (by omega)
      omega
    · intro some
      rcases rooted with ⟨nothing, -⟩ | ⟨-, -, grown, -⟩
      · rw [length_eq_zero_iff.mp noTrailing, append_nil] at equal
        exact absurd (equal.trans nothing) some
      · exact grown
    · have laid := appended.laid
      rw [top_bufferFlushIfFull] at laid
      rw [appended.placed_eq, placed_bufferFlushIfFull]
      exact building.laid.append laid
    · exact sealed.1
    · exact sealed.2
    · exact fun made member leaf isLeaf =>
        building.leaves made (by simpa using appended.mem_of_leaf member isLeaf) leaf isLeaf
    · refine rooted.imp (fun nothing => ⟨nothing.1, by rw [nothing.2]⟩) ?_
      rintro ⟨made, one, -, isRoot⟩
      exact ⟨made, one, isRoot⟩
    · exact fun _ trailing => absurd (length_eq_zero_iff.mp noTrailing) trailing
  · rename_i trailing
    have drawnHere : ∀ ctx ∈ lowest :: rest, CtxDrawn draw
        (reserve (bufferFlushIfFull b.out) bitLeafNodeSize).draws ctx := by
      rw [draws_reserve, draws_bufferFlushIfFull]
      exact drawn
    obtain ⟨inner, appended⟩ := climb_appended drawnHere
    have cur := cur_climb_le draw (reserve (bufferFlushIfFull b.out) bitLeafNodeSize) lowest rest
    have curGrown := le_cur_climb draw (reserve (bufferFlushIfFull b.out) bitLeafNodeSize) lowest
      rest
    have leafHolds : ∀ entry ∈ (⟨b.curLeaf, ⟨0, blank.1, blank.2⟩⟩ : Leaf K I V).entries,
        entry ∈ entries := by
      intro entry member
      rw [equal]
      exact mem_append_right _ member
    generalize (⟨b.curLeaf, ⟨0, blank.1, blank.2⟩⟩ : Leaf K I V) = leaf at leafHolds ⊢
    generalize outEq : putLeaf (climb draw (reserve (bufferFlushIfFull b.out) bitLeafNodeSize)
      lowest rest).1 (bufferFlushIfFull b.out).cur (leafPointer b) leaf = out
    obtain ⟨placedEq, logEq, laid, keys, nodesDrawn⟩ := building.leafPut appended outEq
    have climbedRecorded : ∀ made ∈ (climb draw (reserve (bufferFlushIfFull b.out)
        bitLeafNodeSize) lowest rest).1.log, made ∈ out.log := by
      intro made member
      rw [logEq]
      exact mem_append_left _ member
    have recorded : ∀ made ∈ b.out.log, made ∈ out.log := fun made member =>
      climbedRecorded made (appended.mem_log (by simpa using member))
    have rooted := climb_root drawnHere climbedRecorded (holds.mono recorded)
      (upper.mono recorded) lastOfRest
    rw [height] at rooted
    have topEq : out.top = (climb draw (reserve (bufferFlushIfFull b.out) bitLeafNodeSize) lowest
        rest).1.top := by
      rw [← outEq, top_putLeaf]
    have drawsEq : out.draws = (climb draw (reserve (bufferFlushIfFull b.out) bitLeafNodeSize)
        lowest rest).1.draws := by
      rw [← outEq]
      rfl
    have beginEq := (congrArg Output.begin outEq.symm).trans appended.begin_eq
    have fileEq := (congrArg Output.file outEq.symm).trans appended.file_eq
    have curEq := congrArg Output.cur outEq.symm
    rw [begin_reserve] at beginEq
    rw [file_reserve] at fileEq
    rw [cur_reserve] at cur curGrown
    generalize climb draw (reserve (bufferFlushIfFull b.out) bitLeafNodeSize) lowest rest =
      climbed at *
    have curSame : out.cur = climbed.1.cur := curEq
    refine ⟨beginEq, fileEq, ?_, ?_, laid, keys, nodesDrawn, ?_, ?_, ?_⟩
    · have few : rest.length * bitInnerNodeSize ≤ builderHeight * bitInnerNodeSize :=
        Nat.mul_le_mul_right _ (by omega)
      rw [curSame]
      omega
    · intro _
      have smaller : bitInnerNodeSize ≤ bitLeafNodeSize := by decide
      rw [curSame]
      omega
    · intro made member other isLeaf
      rw [logEq] at member
      rcases mem_append.mp member with old | new
      · exact building.leaves made (by simpa using appended.mem_of_leaf old isLeaf) other isLeaf
      · rw [mem_singleton.mp new] at isLeaf
        cases isLeaf
        exact leafHolds
    · refine rooted.imp (fun nothing => ⟨nothing.1, by rw [nothing.2]⟩) ?_
      rintro ⟨made, top, -, isRoot⟩
      exact ⟨made, top, drawsEq ▸ isRoot.drawn, topEq ▸ isRoot.last, isRoot.inner, isRoot.tree⟩
    · intro nothing _
      rcases rooted with ⟨-, still⟩ | ⟨made, -, -, isRoot⟩
      · have innerNil : inner = [] := by
          have placed := appended.placed_eq
          rw [still] at placed
          exact append_right_eq_self.mp placed.symm
        refine ⟨leaf, ?_, ?_⟩
        · rw [topEq, still, top_reserve, top_bufferFlushIfFull]
        · rw [placedEq, innerNil, append_nil]
      · obtain ⟨val, member⟩ := isRoot.tree.endsWith.mem
        rw [nothing] at member
        cases member

end

/-! ## The finished file -/

/-- The root that `bit_builder_complete` takes from the last context. -/
def rootSecret (blank : K × I) (top : Context K I V) : K × I :=
  (top.head?.map fun made => made.pointer.secret).getD blank

structure FileFinished (draw : Nat → K × I) (blank : K × I) (begin : Nat) (b : Builder K I V)
    (entries : List (Nat × V)) (completed : Completed K I V) (done : List (Nat × V))
    (out : Output K I V) (top : Context K I V) : Prop where
  split : entries = done ++ b.curLeaf
  whole : bitLeafLen ∣ done.length
  tree : TreeFinished draw begin b entries done out top
  root_eq : completed.root = ⟨out.top - bitInnerNodeSize, (rootSecret blank top).1,
    (rootSecret blank top).2⟩
  file_eq : completed.file = writeBuffer b.out.begin out
  filter : ∀ entry ∈ entries, bloomFilterContains completed.filter entry.1 = true

section

variable {draw : Nat → K × I} {blank : K × I} {begin : Nat} {entries : List (Nat × V)}

theorem fileFinished_buildFile (draw : Nat → K × I) (blank : K × I) (begin : Nat)
    (within : entries.length ≤ defaultLsmFileCapacity) :
    ∃ done out top, FileFinished draw blank begin (builderWith draw blank begin entries) entries
      (buildFile draw blank begin entries) done out top := by
  have building := building_builderWith blank draw begin entries
  obtain ⟨done, split, whole, tree⟩ := building.treeFinished blank within
  have lastEmpty : (builderWith draw blank begin entries).ctx.getLastD [] = [] := by
    obtain ⟨held, stack, equal⟩ := building.stack
    have heldWithin : held.length ≤ defaultLsmFileCapacity := by
      rw [equal, length_append] at within
      omega
    rw [getLastD_eq_getLast?, stack.last_of_capacity building.height heldWithin]
    rfl
  refine ⟨done, _, _, split, whole, tree, ?_, ?_, building.filter⟩
  · unfold buildFile complete
    rw [lastEmpty]
    rfl
  · unfold buildFile complete
    rw [lastEmpty]
    rfl

variable {b : Builder K I V} {completed : Completed K I V} {done : List (Nat × V)}
  {out : Output K I V} {top : Context K I V}
  (finished : FileFinished draw blank begin b entries completed done out top)
include finished

theorem FileFinished.log_eq : completed.file.map Prod.snd = out.log := by
  rw [finished.file_eq]
  simp [writeBuffer, Output.log, Output.placed]

theorem FileFinished.authentic : Authentic draw (completed.file.map Prod.snd) entries := by
  rw [finished.log_eq]
  refine ⟨finished.tree.leaves, fun made member children isInner => ?_⟩
  obtain ⟨k, -, drawnAt, below⟩ := finished.tree.keys made member children isInner
  exact ⟨k, drawnAt, below⟩

theorem FileFinished.root_of_done (some : done ≠ []) :
    ∃ made, completed.root = made.pointer ∧
      IsRoot draw out.log (builderHeight - 1) out made done := by
  rcases finished.tree.root with ⟨nothing, -⟩ | ⟨made, topEq, isRoot⟩
  · exact absurd nothing some
  · refine ⟨made, ?_, isRoot⟩
    rw [finished.root_eq, topEq, ← isRoot.last, Nat.add_sub_cancel]
    rfl

theorem FileFinished.root_of_nothing (nothing : done = []) :
    completed.root = ⟨out.top - bitInnerNodeSize, blank.1, blank.2⟩ := by
  rcases finished.tree.root with ⟨-, topEq⟩ | ⟨made, -, isRoot⟩
  · rw [finished.root_eq, topEq]
    rfl
  · obtain ⟨val, member⟩ := isRoot.tree.endsWith.mem
    rw [nothing] at member
    cases member

theorem FileFinished.laid (room : bufferFull b.out = false) :
    Laid begin out.top completed.file := by
  have same : out.begin = b.out.begin := by
    rw [finished.tree.begin_eq, bufferFlushIfFull, room]
    rfl
  rw [finished.file_eq, ← same]
  exact finished.tree.laid

end

end SwornDisk.C.Bit

import SwornDisk.Lib.OrdMap

/-!
# K-way merge by version

Ascending streams of bindings, each from a source with a version, are merged
through a priority queue; of the bindings of one key the one from the newest
source is kept.  The queue is any structure with the laws of a min-heap.  The
output is specified by `IsNewest`: for every key it holds the binding of highest
version among all that went in.
-/

namespace SwornDisk.Lib

open List

variable {ν τ H β : Type}

/-- Among bindings `(version, key, value)`, `result` is the value of the one of
highest version under `key`, or `none` if there is none. -/
def IsNewest (bindings : Set (Nat × Nat × ν)) (key : Nat) (result : Option ν) : Prop :=
  match result with
  | some value => ∃ version, (version, key, value) ∈ bindings ∧
      ∀ other held, (other, key, held) ∈ bindings → other ≤ version
  | none => ∀ version held, (version, key, held) ∉ bindings

def BindsOnce (bindings : Set (Nat × Nat × ν)) : Prop :=
  ∀ version key left right, (version, key, left) ∈ bindings → (version, key, right) ∈ bindings →
    left = right

variable {bindings : Set (Nat × Nat × ν)}

theorem IsNewest.unique (once : BindsOnce bindings) {key : Nat} {left right : Option ν}
    (isLeft : IsNewest bindings key left) (isRight : IsNewest bindings key right) :
    left = right := by
  cases left with
  | none =>
    cases right with
    | none => rfl
    | some value =>
      obtain ⟨version, member, -⟩ := isRight
      exact absurd member (isLeft _ _)
  | some value =>
    obtain ⟨version, member, highest⟩ := isLeft
    cases right with
    | none => exact absurd member (isRight _ _)
    | some other =>
      obtain ⟨version', member', highest'⟩ := isRight
      obtain rfl : version = version' := le_antisymm (highest' _ _ member) (highest _ _ member')
      exact congrArg some (once _ _ _ _ member member')

variable {result : Option ν} {version : Nat} {held : ν}

theorem IsNewest.insert_dominated {key lower bound : Nat} {value : ν}
    (newest : IsNewest bindings key result) (member : (version, bound, value) ∈ bindings)
    (dominated : lower ≤ version) :
    IsNewest (insert (lower, bound, held) bindings) key result := by
  cases result with
  | none =>
    rintro found heldThere (equal | inside)
    · obtain ⟨-, rfl, -⟩ := by simpa using equal
      exact newest _ _ member
    · exact newest _ _ inside
  | some winner =>
    obtain ⟨highestVersion, winnerMember, highest⟩ := newest
    refine ⟨highestVersion, .inr winnerMember, ?_⟩
    rintro other heldThere (equal | inside)
    · obtain ⟨rfl, rfl, -⟩ := by simpa using equal
      exact dominated.trans (highest _ _ member)
    · exact highest _ _ inside

theorem isNewest_insert_fresh {fresh : Nat}
    (absent : ∀ other value, (other, fresh, value) ∉ bindings) {key : Nat}
    (newest : IsNewest bindings key result) :
    IsNewest (insert (version, fresh, held) bindings) key
      (if key = fresh then some held else result) := by
  by_cases same : key = fresh
  · subst same
    rw [if_pos rfl]
    refine ⟨version, .inl rfl, ?_⟩
    rintro other value (equal | inside)
    · obtain ⟨rfl, -⟩ := by simpa using equal
      exact le_rfl
    · exact absurd inside (absent _ _)
  · rw [if_neg same]
    cases result with
    | none =>
      rintro other value (equal | inside)
      · obtain ⟨-, rfl, -⟩ := by simpa using equal
        exact same rfl
      · exact newest _ _ inside
    | some winner =>
      obtain ⟨highestVersion, winnerMember, highest⟩ := newest
      refine ⟨highestVersion, .inr winnerMember, ?_⟩
      rintro other value (equal | inside)
      · obtain ⟨-, rfl, -⟩ := by simpa using equal
        exact absurd rfl same
      · exact highest _ _ inside

theorem isNewest_union_iff {left right : Set (Nat × Nat × ν)} {key : Nat}
    (absent : ∀ version value, (version, key, value) ∉ right) :
    IsNewest (left ∪ right) key result ↔ IsNewest left key result := by
  have same : ∀ version value, (version, key, value) ∈ left ∪ right ↔
      (version, key, value) ∈ left := fun version value =>
    or_iff_left (absent version value)
  cases result with
  | none => simp only [IsNewest, same]
  | some value => simp only [IsNewest, same]

/-- A min-heap by `key` as its users see it. -/
structure MinHeap (α H : Type) (key : α → Nat) where
  empty : H
  push : H → α → H
  pop : H → Option (α × H)
  elems : H → Multiset α
  elems_empty : elems empty = 0
  elems_push : ∀ heap item, elems (push heap item) = item ::ₘ elems heap
  pop_none : ∀ {heap}, pop heap = none → elems heap = 0
  pop_some : ∀ {heap item rest}, pop heap = some (item, rest) →
    elems heap = item ::ₘ elems rest ∧ ∀ other ∈ elems rest, key item ≤ key other

namespace MinHeap

variable {α : Type} {key : α → Nat} (ops : MinHeap α H key)

def pushAll (items : List α) : H :=
  items.foldl ops.push ops.empty

theorem elems_foldl_push (heap : H) (items : List α) :
    ops.elems (items.foldl ops.push heap) = ops.elems heap + items := by
  induction items generalizing heap with
  | nil => simp
  | cons item items ih =>
    rw [foldl_cons, ih, ops.elems_push, ← Multiset.cons_coe, Multiset.cons_add,
      Multiset.add_cons]

@[simp] theorem elems_pushAll (items : List α) : ops.elems (ops.pushAll items) = items := by
  rw [pushAll, elems_foldl_push, ops.elems_empty, zero_add]

end MinHeap

abbrev SortedList (α : Type) (key : α → Nat) : Type :=
  { items : List α // items.Pairwise fun left right => key left ≤ key right }

def sortedListHeap {α : Type} (key : α → Nat) : MinHeap α (SortedList α key) key where
  empty := ⟨[], List.Pairwise.nil⟩
  push heap item := ⟨heap.1.orderedInsert (fun left right => key left ≤ key right) item,
    List.Pairwise.orderedInsert item heap.1 heap.2⟩
  pop heap :=
    match heap with
    | ⟨[], _⟩ => none
    | ⟨item :: rest, sorted⟩ => some (item, ⟨rest, (List.pairwise_cons.mp sorted).2⟩)
  elems heap := heap.1
  elems_empty := rfl
  elems_push heap item := by
    rw [Multiset.cons_coe, Multiset.coe_eq_coe]
    exact List.perm_orderedInsert _ item heap.1
  pop_none := by
    rintro ⟨_ | ⟨item, rest⟩, sorted⟩ popped
    · rfl
    · cases popped
  pop_some := by
    rintro ⟨_ | ⟨first, tail⟩, sorted⟩ item rest popped
    · cases popped
    · cases popped
      exact ⟨rfl, (List.pairwise_cons.mp sorted).1⟩

/-- The head of a stream, the source it comes from and what the stream holds next. -/
structure MergeNode (τ ν : Type) where
  source : τ
  entry : Nat × ν
  rest : List (Nat × ν)

namespace MergeNode

def key (node : MergeNode τ ν) : Nat :=
  node.entry.1

def entries (node : MergeNode τ ν) : List (Nat × ν) :=
  node.entry :: node.rest

def ofEntries (source : τ) : List (Nat × ν) → Option (MergeNode τ ν)
  | [] => none
  | entry :: rest => some ⟨source, entry, rest⟩

end MergeNode

variable (ops : MinHeap (MergeNode τ ν) H MergeNode.key)

def refill (heap : H) (node : MergeNode τ ν) : H :=
  match MergeNode.ofEntries node.source node.rest with
  | none => heap
  | some next => ops.push heap next

def pendingCount (heap : H) : Nat :=
  ((ops.elems heap).map fun node => node.entries.length).sum

variable {heap : H} {first : MergeNode τ ν}

theorem pendingCount_refill {rest : H} (popped : ops.pop heap = some (first, rest)) :
    pendingCount ops (refill ops rest first) < pendingCount ops heap := by
  obtain ⟨content, -⟩ := ops.pop_some popped
  unfold pendingCount refill
  rw [content, Multiset.map_cons, Multiset.sum_cons]
  cases remaining : first.rest with
  | nil =>
    simp only [MergeNode.ofEntries, MergeNode.entries, remaining, length_cons]
    omega
  | cons entry later =>
    simp only [MergeNode.ofEntries, MergeNode.entries, remaining, ops.elems_push,
      Multiset.map_cons, Multiset.sum_cons, length_cons]
    omega

variable (version : τ → Nat)

/-- Of two streams with the same head key, the one whose source is newer; the
one already held wins a tie. -/
def newerOf (distinct first : MergeNode τ ν) : MergeNode τ ν :=
  if version distinct.source < version first.source then first else distinct

/-- The merge loop.  `distinct` is the best binding seen of the current key; when
a greater key comes up it is handed to `emit`.  The last one is returned. -/
def kwayMerge (emit : β → Nat × ν → Option β) (heap : H) (distinct : MergeNode τ ν) (out : β) :
    Option ((Nat × ν) × β) :=
  match _popped : ops.pop heap with
  | none => some (distinct.entry, out)
  | some (first, rest) =>
    if distinct.key = first.key then
      kwayMerge emit (refill ops rest first) (newerOf version distinct first) out
    else
      match emit out distinct.entry with
      | none => none
      | some next => kwayMerge emit (refill ops rest first) first next
termination_by pendingCount ops heap
decreasing_by all_goals exact pendingCount_refill ops _popped

def mergeOutput (heap : H) (distinct : MergeNode τ ν) : List (Nat × ν) :=
  match _popped : ops.pop heap with
  | none => [distinct.entry]
  | some (first, rest) =>
    if distinct.key = first.key then
      mergeOutput (refill ops rest first) (newerOf version distinct first)
    else
      distinct.entry :: mergeOutput (refill ops rest first) first
termination_by pendingCount ops heap
decreasing_by all_goals exact pendingCount_refill ops _popped

section

variable {heap rest : H} {distinct first : MergeNode τ ν}

theorem mergeOutput_of_pop (popped : ops.pop heap = some (first, rest)) :
    mergeOutput ops version heap distinct = if distinct.key = first.key then
      mergeOutput ops version (refill ops rest first) (newerOf version distinct first)
    else distinct.entry :: mergeOutput ops version (refill ops rest first) first := by
  rw [mergeOutput]
  split <;> simp_all

end

theorem mergeOutput_ne_nil (heap : H) (distinct : MergeNode τ ν) :
    mergeOutput ops version heap distinct ≠ [] := by
  fun_induction mergeOutput ops version heap distinct with
  | case1 => exact cons_ne_nil _ _
  | case2 _ _ _ _ _ _ ih => exact ih
  | case3 => exact cons_ne_nil _ _

theorem kwayMerge_eq (emit : β → Nat × ν → Option β) (heap : H) (distinct : MergeNode τ ν)
    (out : β) : ∃ init last, mergeOutput ops version heap distinct = init ++ [last] ∧
      kwayMerge ops version emit heap distinct out =
        (init.foldlM emit out).map fun state => (last, state) := by
  fun_induction kwayMerge ops version emit heap distinct out with
  | case1 heap distinct out popped =>
    refine ⟨[], distinct.entry, ?_, rfl⟩
    rw [mergeOutput]
    split <;> simp_all
  | case2 heap distinct out first rest popped same ih =>
    obtain ⟨init, last, output, result⟩ := ih
    refine ⟨init, last, ?_, result⟩
    rw [mergeOutput_of_pop ops version popped, if_pos same, output]
  | case3 heap distinct out first rest popped differ failed =>
    obtain ⟨init, last, output⟩ : ∃ init last,
        mergeOutput ops version (refill ops rest first) first = init ++ [last] :=
      ⟨_, _, (dropLast_concat_getLast (mergeOutput_ne_nil ops version _ first)).symm⟩
    refine ⟨distinct.entry :: init, last, ?_, ?_⟩
    · rw [mergeOutput_of_pop ops version popped, if_neg differ, output, cons_append]
    · simp [foldlM_cons, failed]
  | case4 heap distinct out first rest popped differ next emitted ih =>
    obtain ⟨init, last, output, result⟩ := ih
    refine ⟨distinct.entry :: init, last, ?_, ?_⟩
    · rw [mergeOutput_of_pop ops version popped, if_neg differ, output, cons_append]
    · simp [foldlM_cons, emitted, result]

variable {distinct : MergeNode τ ν}

theorem kwayMerge_of_output (emit : β → Nat × ν → Option β) {init : List (Nat × ν)}
    {last : Nat × ν} (output : mergeOutput ops version heap distinct = init ++ [last]) (out : β) :
    kwayMerge ops version emit heap distinct out =
      (init.foldlM emit out).map fun state => (last, state) := by
  obtain ⟨init', last', output', result⟩ := kwayMerge_eq ops version emit heap distinct out
  obtain ⟨rfl, same⟩ := append_inj' (output.symm.trans output') rfl
  obtain rfl := (List.cons.inj same).1
  exact result

def pending (heap : H) (distinct : MergeNode τ ν) : Set (Nat × Nat × ν) :=
  insert (version distinct.source, distinct.entry)
    {binding | ∃ node ∈ ops.elems heap, ∃ entry ∈ node.entries,
      binding = (version node.source, entry)}

/-- What the loop keeps true: every stream is ascending and no head is below the
binding in hand. -/
structure MergeReady (heap : H) (distinct : MergeNode τ ν) : Prop where
  ascending : ∀ node ∈ ops.elems heap, Ascending node.entries
  least : ∀ node ∈ ops.elems heap, distinct.key ≤ node.key

theorem mem_elems_refill {node : MergeNode τ ν} :
    node ∈ ops.elems (refill ops heap first) ↔
      node ∈ ops.elems heap ∨ node.source = first.source ∧ node.entries = first.rest := by
  unfold refill
  cases remaining : first.rest with
  | nil => simp [MergeNode.ofEntries, MergeNode.entries]
  | cons entry later =>
    simp only [MergeNode.ofEntries, ops.elems_push, Multiset.mem_cons]
    rw [or_comm]
    refine or_congr Iff.rfl ⟨?_, ?_⟩
    · rintro rfl
      exact ⟨rfl, rfl⟩
    · obtain ⟨source, head, tail⟩ := node
      rintro ⟨rfl, same⟩
      cases same
      rfl

section

variable {ops version} {heap rest : H} {distinct first : MergeNode τ ν}

theorem pending_eq_insert (popped : ops.pop heap = some (first, rest)) :
    pending ops version heap distinct =
      insert (version distinct.source, distinct.entry)
        (pending ops version (refill ops rest first) first) := by
  obtain ⟨content, -⟩ := ops.pop_some popped
  unfold pending
  refine congrArg _ ?_
  ext binding
  simp only [content, Multiset.mem_cons, mem_elems_refill, Set.mem_insert_iff, Set.mem_ofPred_eq]
  constructor
  · rintro ⟨node, rfl | queued, entry, member, rfl⟩
    · rcases mem_cons.mp member with rfl | later
      · exact .inl rfl
      · cases remaining : node.rest with
        | nil => simp [remaining] at later
        | cons head tail =>
          rw [remaining] at later
          exact .inr ⟨⟨node.source, head, tail⟩, .inr ⟨rfl, rfl⟩, entry, later, rfl⟩
    · exact .inr ⟨node, .inl queued, entry, member, rfl⟩
  · rintro (rfl | ⟨node, queued | ⟨sameSource, sameEntries⟩, entry, member, rfl⟩)
    · exact ⟨first, .inl rfl, first.entry, mem_cons_self, rfl⟩
    · exact ⟨node, .inr queued, entry, member, rfl⟩
    · rw [sameEntries] at member
      exact ⟨first, .inl rfl, entry, mem_cons_of_mem _ member, by rw [sameSource]⟩

theorem MergeReady.refill (ready : MergeReady ops heap distinct)
    (popped : ops.pop heap = some (first, rest)) :
    MergeReady ops (refill ops rest first) first := by
  obtain ⟨content, minimal⟩ := ops.pop_some popped
  have firstAscending : Ascending first.entries :=
    ready.ascending first (by rw [content]; exact Multiset.mem_cons_self _ _)
  obtain ⟨above, restAscending⟩ := pairwise_cons.mp firstAscending
  constructor
  · intro node member
    rcases (mem_elems_refill ops).mp member with queued | ⟨-, sameEntries⟩
    · exact ready.ascending node (by rw [content]; exact Multiset.mem_cons_of_mem queued)
    · rw [sameEntries]
      exact restAscending
  · intro node member
    rcases (mem_elems_refill ops).mp member with queued | ⟨-, sameEntries⟩
    · exact minimal node queued
    · exact (above node.entry (by rw [← sameEntries]; exact mem_cons_self)).le

theorem MergeReady.congr (ready : MergeReady ops heap first) (same : distinct.key = first.key) :
    MergeReady ops heap distinct where
  ascending := ready.ascending
  least node member := same ▸ ready.least node member

theorem MergeReady.first_le (ready : MergeReady ops heap distinct)
    (popped : ops.pop heap = some (first, rest)) : distinct.key ≤ first.key := by
  obtain ⟨content, -⟩ := ops.pop_some popped
  exact ready.least first (by rw [content]; exact Multiset.mem_cons_self _ _)

theorem MergeReady.key_le (ready : MergeReady ops heap distinct) {binding : Nat × Nat × ν}
    (member : binding ∈ pending ops version heap distinct) : distinct.key ≤ binding.2.1 := by
  rcases member with rfl | ⟨node, queued, entry, inNode, rfl⟩
  · exact le_rfl
  · have nodeLeast := ready.least node queued
    obtain ⟨above, -⟩ := pairwise_cons.mp (ready.ascending node queued)
    rcases mem_cons.mp inNode with rfl | later
    · exact nodeLeast
    · exact nodeLeast.trans (above entry later).le

theorem newerOf_key (same : distinct.key = first.key) :
    (newerOf version distinct first).key = first.key := by
  unfold newerOf
  split
  · rfl
  · exact same

theorem IsNewest.of_newerOf {queue : H} (same : distinct.key = first.key) {key : Nat}
    (newest : IsNewest (pending ops version queue (newerOf version distinct first)) key result) :
    IsNewest (insert (version distinct.source, distinct.entry)
      (pending ops version queue first)) key result := by
  unfold newerOf at newest
  have sameKey : distinct.entry.1 = first.entry.1 := same
  split at newest
  · rename_i older
    exact newest.insert_dominated (.inl (by rw [sameKey])) older.le
  · rename_i notOlder
    unfold pending
    rw [Set.insert_comm]
    exact newest.insert_dominated (.inl (by rw [← sameKey])) (not_lt.mp notOlder)

end

theorem mergeOutput_spec (ready : MergeReady ops heap distinct) :
    Ascending (mergeOutput ops version heap distinct) ∧
      (∀ entry ∈ mergeOutput ops version heap distinct, distinct.key ≤ entry.1) ∧
      ∀ key, IsNewest (pending ops version heap distinct) key
        ((mergeOutput ops version heap distinct).lookup key) := by
  fun_induction mergeOutput ops version heap distinct with
  | case1 heap distinct popped =>
    have empty : pending ops version heap distinct =
        insert (version distinct.source, distinct.entry) ∅ := by
      simp [pending, ops.pop_none popped]
    refine ⟨pairwise_singleton _ _, by simp [MergeNode.key], fun key => ?_⟩
    rw [empty, lookup_cons_eq_ite]
    exact isNewest_insert_fresh (fun _ _ => id) (fun _ _ => id)
  | case2 heap distinct first rest popped same ih =>
    obtain ⟨ascending, above, newest⟩ :=
      ih ((ready.refill popped).congr (newerOf_key same))
    rw [newerOf_key same, ← same] at above
    refine ⟨ascending, above, fun key => ?_⟩
    rw [pending_eq_insert popped]
    exact (newest key).of_newerOf same
  | case3 heap distinct first rest popped differ ih =>
    obtain ⟨ascending, above, newest⟩ := ih (ready.refill popped)
    have below : distinct.key < first.key :=
      lt_of_le_of_ne (ready.first_le popped) differ
    have aboveDistinct : ∀ entry ∈ mergeOutput ops version (refill ops rest first) first,
        distinct.key < entry.1 := fun entry member => below.trans_le (above entry member)
    refine ⟨pairwise_cons.mpr ⟨aboveDistinct, ascending⟩, ?_, fun key => ?_⟩
    · intro entry member
      rcases mem_cons.mp member with rfl | later
      · exact le_rfl
      · exact (aboveDistinct entry later).le
    · rw [pending_eq_insert popped, lookup_cons_eq_ite]
      refine isNewest_insert_fresh (fun other value member => ?_) (newest key)
      have := (ready.refill popped).key_le member
      exact absurd below (not_lt.mpr this)

end SwornDisk.Lib

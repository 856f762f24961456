import SwornDisk.Lib.HeadMerge
import SwornDisk.Rust.BitIteration

/-!
# The merge of a compaction

`BIT::from_compaction` keeps the current record of each table.  A round takes the least
address, with the record of the last table that has it, and moves the iterators of all tables
that have it.
-/

namespace SwornDisk.Rust

open Lib List Program Option

variable {kernel : Kernel} {metaDev : Device} {devices : Set Device}

/-- The least of the current records, of the last table that has it, and all tables that
have its address. -/
structure IsBaseline (nodes : List (Option LeafRecord)) (baseline : Bit.Baseline) : Prop where
  least : ∀ (i : Nat) node, nodes[i]? = some (some node) → baseline.record.lba ≤ node.lba
  duplicates : ∀ i, i ∈ baseline.duplicates ↔
    ∃ node, nodes[i]? = some (some node) ∧ node.lba = baseline.record.lba
  nodup : baseline.duplicates.Nodup
  last : ∃ i : Nat, nodes[i]? = some (some baseline.record) ∧
    ∀ (j : Nat) node, i < j → nodes[j]? = some (some node) → node.lba ≠ baseline.record.lba

def FoundBaseline (nodes : List (Option LeafRecord)) : Option Bit.Baseline → Prop
  | none => ∀ (i : Nat) node, nodes[i]? ≠ some (some node)
  | some baseline => IsBaseline nodes baseline

variable {i : Nat} {node : LeafRecord} {least : Bit.Baseline}

section

variable {seen rest : List (Option LeafRecord)} {baseline : Option Bit.Baseline}

theorem getElem?_snoc_eq_some_iff {α : Type} {items : List α} {item found : α} :
    (items ++ [item])[i]? = some found ↔
      items[i]? = some found ∨ i = items.length ∧ item = found := by
  rw [getElem?_append]
  split
  · next inside =>
      constructor
      · exact .inl
      · rintro (here | ⟨rfl, -⟩)
        · exact here
        · exact absurd inside (Nat.lt_irrefl _)
  · next outside =>
      rw [getElem?_eq_none (Nat.le_of_not_lt outside), getElem?_singleton]
      constructor
      · intro here
        split at here
        · exact .inr ⟨by omega, some.inj here⟩
        · cases here
      · rintro (here | ⟨rfl, rfl⟩)
        · cases here
        · simp

theorem getElem?_snoc_node {found : LeafRecord} :
    (seen ++ [some node])[i]? = some (some found) ↔
      seen[i]? = some (some found) ∨ i = seen.length ∧ node = found := by
  rw [getElem?_snoc_eq_some_iff, some.injEq]

theorem isBaseline_snoc_less
    (less : ∀ (i : Nat) other, seen[i]? = some (some other) → node.lba < other.lba) :
    IsBaseline (seen ++ [some node]) ⟨node, [seen.length]⟩ where
  least i found here := by
    rcases getElem?_snoc_node.mp here with old | ⟨-, rfl⟩
    · exact (less i found old).le
    · exact le_rfl
  duplicates i := by
    rw [mem_singleton]
    constructor
    · rintro rfl
      exact ⟨node, getElem?_snoc_node.mpr (.inr ⟨rfl, rfl⟩), rfl⟩
    · rintro ⟨found, here, same⟩
      rcases getElem?_snoc_node.mp here with old | ⟨place, -⟩
      · have smaller := less i found old
        exact absurd same (by simp only; omega)
      · exact place
  nodup := nodup_singleton _
  last := by
    refine ⟨seen.length, getElem?_snoc_node.mpr (.inr ⟨rfl, rfl⟩), fun j found behind here => ?_⟩
    have bound := (List.getElem?_eq_some_iff.mp here).1
    rw [length_append, length_singleton] at bound
    omega

theorem IsBaseline.snoc_same (isBaseline : IsBaseline seen least)
    (same : node.lba = least.record.lba) :
    IsBaseline (seen ++ [some node]) ⟨node, least.duplicates ++ [seen.length]⟩ where
  least i found here := by
    rcases getElem?_snoc_node.mp here with old | ⟨-, rfl⟩
    · exact same.trans_le (isBaseline.least i found old)
    · exact le_rfl
  duplicates i := by
    simp only [mem_append, mem_singleton, isBaseline.duplicates, getElem?_snoc_node, same]
    constructor
    · rintro (⟨found, here, equal⟩ | place)
      · exact ⟨found, .inl here, equal⟩
      · exact ⟨node, .inr ⟨place, rfl⟩, same⟩
    · rintro ⟨found, here | ⟨place, -⟩, equal⟩
      · exact .inl ⟨found, here, equal⟩
      · exact .inr place
  nodup := by
    refine List.Nodup.append isBaseline.nodup (nodup_singleton _) ?_
    rw [disjoint_singleton]
    intro member
    obtain ⟨found, here, -⟩ := (isBaseline.duplicates _).mp member
    exact absurd (List.getElem?_eq_some_iff.mp here).1 (Nat.lt_irrefl _)
  last := by
    refine ⟨seen.length, getElem?_snoc_node.mpr (.inr ⟨rfl, rfl⟩), fun j found behind here => ?_⟩
    have bound := (List.getElem?_eq_some_iff.mp here).1
    rw [length_append, length_singleton] at bound
    omega

theorem IsBaseline.snoc_above (isBaseline : IsBaseline seen least) {node : Option LeafRecord}
    (above : ∀ found, node = some found → least.record.lba < found.lba) :
    IsBaseline (seen ++ [node]) least where
  least i found here := by
    rcases getElem?_snoc_eq_some_iff.mp here with old | ⟨-, new⟩
    · exact isBaseline.least i found old
    · exact (above found new).le
  duplicates i := by
    rw [isBaseline.duplicates]
    constructor
    · rintro ⟨found, here, equal⟩
      exact ⟨found, getElem?_snoc_eq_some_iff.mpr (.inl here), equal⟩
    · rintro ⟨found, here, equal⟩
      rcases getElem?_snoc_eq_some_iff.mp here with old | ⟨-, new⟩
      · exact ⟨found, old, equal⟩
      · have more := above found new
        omega
  nodup := isBaseline.nodup
  last := by
    obtain ⟨i, here, last⟩ := isBaseline.last
    refine ⟨i, getElem?_snoc_eq_some_iff.mpr (.inl here), fun j found behind there => ?_⟩
    rcases getElem?_snoc_eq_some_iff.mp there with old | ⟨-, new⟩
    · exact last j found behind old
    · have more := above found new
      omega

theorem pickNode_found (found : FoundBaseline seen baseline) (node : Option LeafRecord) :
    FoundBaseline (seen ++ [node]) (Bit.pickNode baseline seen.length node) := by
  cases node with
  | none =>
    cases baseline with
    | none =>
      intro i n here
      rcases getElem?_snoc_eq_some_iff.mp here with old | ⟨-, new⟩
      · exact found i n old
      · cases new
    | some least => exact found.snoc_above fun _ none' => by cases none'
  | some node =>
    cases baseline with
    | none => exact isBaseline_snoc_less fun i other here => absurd here (found i other)
    | some least =>
      unfold Bit.pickNode
      simp only
      split
      · next less =>
          exact isBaseline_snoc_less fun i other here =>
            Nat.lt_of_lt_of_le less (found.least i other here)
      · split
        · next same => exact found.snoc_same same
        · next notLess notSame =>
            refine found.snoc_above fun other isNode => ?_
            obtain rfl := some.inj isNode
            omega

theorem findBaseline_found (found : FoundBaseline seen baseline) :
    FoundBaseline (seen ++ rest) (Bit.findBaseline rest seen.length baseline) := by
  induction rest generalizing seen baseline with
  | nil => rwa [append_nil]
  | cons node rest ih =>
    have next := ih (pickNode_found found node)
    rw [length_append, length_singleton] at next
    rwa [append_cons]

theorem findBaseline_nodes (nodes : List (Option LeafRecord)) :
    FoundBaseline nodes (Bit.findBaseline nodes 0 none) := by
  have start : FoundBaseline [] none := fun _ _ here => by cases here
  exact findBaseline_found start

end

/-- An iterator that returns these records and then nothing, on each of the devices. -/
def Drains (kernel : Kernel) (devices : Set Device) : List LeafRecord → BitIterator → Prop
  | [], iterator => ∀ metaDev ∈ devices, ∃ iterator',
      (iterator.next kernel metaDev).outcome = .ok (none, iterator')
  | record :: rest, iterator => ∀ metaDev ∈ devices, ∃ iterator',
      (iterator.next kernel metaDev).outcome = .ok (some record, iterator') ∧
        Drains kernel devices rest iterator'

variable {iterator : BitIterator}

theorem Iterating.drains {rest remaining : List LeafRecord}
    (iterating : Iterating kernel devices 1 NextReady iterator rest remaining) :
    Drains kernel devices remaining iterator := by
  induction remaining generalizing iterator rest with
  | nil =>
    intro metaDev member
    obtain ⟨groups, at', ready, usedUp⟩ := iterating.at_end
    have ended : iterator.hasNext = false := by
      cases hasNext : iterator.hasNext with
      | false => rfl
      | true => exact absurd (usedUp 1 le_rfl) (NextReady.next (hasNext ▸ ready))
    exact ⟨_, congrArg Prod.fst (at'.next_none ended)⟩
  | cons record remaining ih =>
    intro metaDev member
    have goesOn : rest ≠ [] ∨ iterator.hasNext = true := by
      obtain ⟨groups, -, ready, all⟩ := iterating
      rcases ready with ⟨hasNext, -⟩ | ⟨-, usedUp, rootUsedUp⟩
      · exact .inr hasNext
      · refine .inl fun empty => cons_ne_nil record remaining (all.symm.trans ?_)
        rw [empty, Traversal.pending, Traversal.pending, Traversal.pending, usedUp, rootUsedUp]
        rfl
    have nothing : ReadsInside [] := fun _ none' => absurd none' not_mem_nil
    rcases wp_outcome (iterating.next settles_three member (fun _ _ => NextReady.next)
      goesOn nothing) with ⟨result, reads, run, good, reached⟩ | ⟨fault, reads, run, notSafe, -⟩
    · obtain ⟨item, rest', remaining', isItem, all, iterating'⟩ := reached (good trivial)
      obtain ⟨rfl, rfl⟩ := List.cons.inj all
      obtain ⟨found, iterator'⟩ := result
      simp only at isItem
      subst isItem
      exact ⟨iterator', congrArg Prod.fst run, ih iterating'⟩
    · exact absurd trivial notSafe

theorem Bit.WellShaped.drains {bit : Bit} {records : List LeafRecord}
    (shaped : bit.WellShaped kernel devices records) (level : bit.level = 3)
    (member : metaDev ∈ devices) (second : bit.SecondLeaf kernel metaDev) :
    ∃ iterator, (BitIterator.new kernel metaDev bit).outcome = .ok iterator ∧
      Drains kernel devices records iterator := by
  obtain ⟨iterator, groups, rest, reads, new, -, hasNext, at', all, next⟩ :=
    shaped.new member level
  refine ⟨iterator, ?_, Iterating.drains ⟨groups, at', .inl ⟨hasNext, ?_⟩, all⟩⟩
  · exact congrArg Prod.fst new
  · exact (next rfl).mpr second

/-- A source with its current record, and the iterator that has the others. -/
structure Sourced (kernel : Kernel) (devices : Set Device) (iterator : BitIterator)
    (node : Option LeafRecord) (source : List LeafRecord) : Prop where
  current : node = source.head?
  others : source ≠ [] → Drains kernel devices source.tail iterator

structure Sources (kernel : Kernel) (devices : Set Device) (iterators : List BitIterator)
    (nodes : List (Option LeafRecord)) (sources : List (List LeafRecord)) : Prop where
  length : nodes.length = sources.length
  each : ∀ (i : Nat) source, sources[i]? = some source → ∃ iterator node,
    iterators[i]? = some iterator ∧ nodes[i]? = some node ∧
      Sourced kernel devices iterator node source

variable {source : List LeafRecord} {moved : List Nat}

section

variable {iterators : List BitIterator} {nodes : List (Option LeafRecord)}
  {sources : List (List LeafRecord)}

theorem Drains.next (drains : Drains kernel devices source iterator) (member : metaDev ∈ devices) :
    ∃ iterator', (iterator.next kernel metaDev).outcome = .ok (source.head?, iterator') ∧
      Sourced kernel devices iterator' source.head? source := by
  cases source with
  | nil =>
    obtain ⟨iterator', returned⟩ := drains metaDev member
    exact ⟨iterator', returned, rfl, fun nonempty => absurd rfl nonempty⟩
  | cons record rest =>
    obtain ⟨iterator', returned, others⟩ := drains metaDev member
    exact ⟨iterator', returned, rfl, fun _ => others⟩

section

variable (moved sources)

def advanced : List (List LeafRecord) :=
  sources.mapIdx fun i source => if i ∈ moved then source.tail else source

theorem getElem?_advanced (i : Nat) :
    (advanced moved sources)[i]? =
      sources[i]?.map fun source => if i ∈ moved then source.tail else source :=
  getElem?_mapIdx

end

theorem advanced_cons (fresh : i ∉ moved) (here : sources[i]? = some source) :
    advanced moved (sources.set i source.tail) = advanced (i :: moved) sources := by
  refine ext_getElem? fun j => ?_
  rw [getElem?_advanced, getElem?_advanced]
  by_cases same : j = i
  · subst same
    rw [getElem?_set_self (List.getElem?_eq_some_iff.mp here).1, here]
    simp [fresh]
  · rw [getElem?_set_ne (Ne.symm same)]
    simp [same]

section

variable (all : Sources kernel devices iterators nodes sources)
include all

theorem Sources.move (member : metaDev ∈ devices) (here : sources[i]? = some source)
    (nonempty : source ≠ []) :
    ∃ iterator iterator', iterators[i]? = some iterator ∧
      (iterator.next kernel metaDev).outcome = .ok (source.tail.head?, iterator') ∧
      Sources kernel devices (iterators.set i iterator') (nodes.set i source.tail.head?)
        (sources.set i source.tail) := by
  obtain ⟨iterator, node, found, nodeHere, sourced⟩ := all.each i source here
  obtain ⟨iterator', returned, sourced'⟩ := (sourced.others nonempty).next member
  refine ⟨iterator, iterator', found, returned, ?_, fun j other there => ?_⟩
  · rw [length_set, length_set]
    exact all.length
  · by_cases same : j = i
    · subst same
      rw [getElem?_set_self (List.getElem?_eq_some_iff.mp here).1] at there
      obtain rfl := some.inj there
      exact ⟨iterator', _, getElem?_set_self (List.getElem?_eq_some_iff.mp found).1,
        getElem?_set_self (List.getElem?_eq_some_iff.mp nodeHere).1, sourced'⟩
    · rw [getElem?_set_ne (Ne.symm same)] at there ⊢
      rw [getElem?_set_ne (Ne.symm same)]
      exact all.each j other there

theorem advanceNodes_sources (member : metaDev ∈ devices) (nodup : moved.Nodup)
    (some' : ∀ i ∈ moved, ∃ source, sources[i]? = some source ∧ source ≠ []) :
    ∃ iterators' nodes', Bit.advanceNodes kernel metaDev moved iterators nodes =
        .ok (iterators', nodes') ∧
      Sources kernel devices iterators' nodes' (advanced moved sources) := by
  induction moved generalizing iterators nodes sources with
  | nil =>
    refine ⟨iterators, nodes, rfl, ?_⟩
    have same : advanced [] sources = sources :=
      ext_getElem? fun i => by simp [getElem?_advanced]
    rwa [same]
  | cons i moved ih =>
    obtain ⟨fresh, nodup'⟩ := nodup_cons.mp nodup
    obtain ⟨source, here, nonempty⟩ := some' i mem_cons_self
    obtain ⟨iterator, iterator', found, returned, all'⟩ := all.move member here nonempty
    obtain ⟨iterators', nodes', run, done⟩ := ih all' nodup' fun j inMoved => by
      have other : i ≠ j := by
        rintro rfl
        exact fresh inMoved
      rw [getElem?_set_ne other]
      exact some' j (mem_cons_of_mem _ inMoved)
    refine ⟨iterators', nodes', ?_, ?_⟩
    · unfold Bit.advanceNodes
      rw [childAt_eq found, ok_bind, returned, ok_bind]
      exact run
    · rwa [← advanced_cons fresh here]

theorem Sources.node_iff :
    nodes[i]? = some (some node) ↔ ∃ rest, sources[i]? = some (node :: rest) := by
  constructor
  · intro here
    have bound := (List.getElem?_eq_some_iff.mp here).1
    rw [all.length] at bound
    obtain ⟨iterator, node', -, there, sourced⟩ := all.each i _ (getElem?_eq_getElem bound)
    have current : sources[i].head? = some node := by
      rw [← sourced.current]
      exact some.inj (there.symm.trans here)
    obtain ⟨rest, isSource⟩ := head?_eq_some_iff.mp current
    exact ⟨rest, by rw [getElem?_eq_getElem bound, isSource]⟩
  · rintro ⟨rest, here⟩
    obtain ⟨iterator, node', -, there, sourced⟩ := all.each i _ here
    rw [there, sourced.current]
    rfl

theorem Sources.used_up (none' : ∀ (i : Nat) node, nodes[i]? ≠ some (some node)) :
    ∀ source ∈ sources, source = [] := by
  intro source isSource
  obtain ⟨i, here⟩ := getElem?_of_mem isSource
  cases source with
  | nil => rfl
  | cons node rest => exact absurd (all.node_iff.mpr ⟨rest, here⟩) (none' i node)

end

section

variable {baseline : Bit.Baseline} (all : Sources kernel devices iterators nodes sources)
  (ascending : ∀ source ∈ sources, Ordered source) (isBaseline : IsBaseline nodes baseline)
include all isBaseline

include ascending in
theorem Sources.baseline_le : ∀ source ∈ sources, ∀ record ∈ source,
    baseline.record.lba ≤ record.lba := by
  intro source isSource record member
  obtain ⟨i, here⟩ := getElem?_of_mem isSource
  cases source with
  | nil => cases member
  | cons head rest =>
    have least := isBaseline.least i head (all.node_iff.mpr ⟨rest, here⟩)
    rcases mem_cons.mp member with rfl | inRest
    · exact least
    · exact least.trans ((pairwise_cons.mp (ascending _ isSource)).1 record inRest).le

include ascending in
theorem Sources.newestOf_baseline :
    HeadMerge.newestOf LeafRecord.lba sources baseline.record.lba = some baseline.record := by
  obtain ⟨i, isNode, last⟩ := isBaseline.last
  obtain ⟨rest, here⟩ := all.node_iff.mp isNode
  obtain ⟨bound, isSource⟩ := List.getElem?_eq_some_iff.mp here
  rw [← take_append_drop i sources, drop_eq_getElem_cons bound, isSource]
  refine HeadMerge.newestOf_eq_some (find?_cons_of_pos (by simp)) fun later inLater => ?_
  obtain ⟨j, there⟩ := getElem?_of_mem inLater
  rw [getElem?_drop] at there
  have isLater := mem_of_getElem? there
  intro record member same
  cases later with
  | nil => cases member
  | cons head others =>
    have isNode' := all.node_iff.mpr ⟨others, there⟩
    have differ := last _ head (by omega) isNode'
    have least := isBaseline.least _ head isNode'
    rcases mem_cons.mp member with rfl | inOthers
    · exact differ same
    · have less := (pairwise_cons.mp (ascending _ isLater)).1 record inOthers
      omega

theorem Sources.duplicates_ne_nil :
    ∀ i ∈ baseline.duplicates, ∃ source, sources[i]? = some source ∧ source ≠ [] := by
  intro i member
  obtain ⟨node, isNode, -⟩ := (isBaseline.duplicates i).mp member
  obtain ⟨rest, here⟩ := all.node_iff.mp isNode
  exact ⟨_, here, cons_ne_nil _ _⟩

theorem Sources.advanced_eq :
    advanced baseline.duplicates sources =
      sources.map (HeadMerge.dropLeast LeafRecord.lba baseline.record.lba) := by
  refine ext_getElem? fun i => ?_
  rw [getElem?_advanced, getElem?_map]
  cases here : sources[i]? with
  | none => rfl
  | some source =>
    refine congrArg some ?_
    cases source with
    | nil => simp [HeadMerge.dropLeast]
    | cons head rest =>
      have isNode := all.node_iff.mpr ⟨rest, here⟩
      rw [HeadMerge.dropLeast_cons]
      change (if i ∈ baseline.duplicates then rest else head :: rest) = _
      by_cases same : head.lba = baseline.record.lba
      · rw [if_pos ((isBaseline.duplicates i).mpr ⟨head, isNode, same⟩), if_pos same]
      · rw [if_neg, if_neg same]
        intro member
        obtain ⟨node, isNode', equal⟩ := (isBaseline.duplicates i).mp member
        obtain rfl := some.inj (some.inj (isNode.symm.trans isNode'))
        exact same equal

end

end

end SwornDisk.Rust

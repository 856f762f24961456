import SwornDisk.Rust.BitAssembly

/-!
# Binary searches in the blocks of a table

Both searches of `BIT::find_record` stop when they reach the child with index 0, also when
the address lies behind it.  They reach it with the child behind still to be looked at when
halving the bounds leads to the children 0 and 1, which depends on the number of children
alone.
-/

namespace SwornDisk.Rust

open Lib List Option

/-- Halving the range of this many children leads to the first two of them: in binary, the
number of children plus one starts with two ones. -/
def SecondSkipped (count : Nat) : Prop := 3 * 2 ^ (Nat.log2 (count + 1) - 1) ≤ count + 1

instance (count : Nat) : Decidable (SecondSkipped count) :=
  inferInstanceAs (Decidable (3 * 2 ^ (Nat.log2 (count + 1) - 1) ≤ count + 1))

theorem secondSkipped_two : SecondSkipped 2 := by decide

theorem secondSkipped_half {count : Nat} (large : 3 ≤ count) :
    SecondSkipped ((count - 1) / 2) ↔ SecondSkipped count := by
  have half : (count - 1) / 2 + 1 = (count + 1) / 2 := by omega
  have atLeast : 2 ≤ Nat.log2 (count + 1) := (Nat.le_log2 (by omega)).mpr (by omega)
  obtain ⟨k, digits⟩ : ∃ k, Nat.log2 (count + 1) = k + 2 := ⟨_, (Nat.sub_add_cancel atLeast).symm⟩
  have halfDigits : Nat.log2 ((count + 1) / 2) = k + 1 := by
    rw [Nat.log2_def, if_pos (by omega)] at digits
    omega
  unfold SecondSkipped
  rw [half, halfDigits, digits, Nat.le_div_iff_mul_le Nat.two_pos, Nat.add_sub_cancel,
    Nat.add_sub_assoc (by omega), pow_succ, Nat.mul_assoc]

section

variable {α : Type} {compare : α → Ordering} {children nodes : List α}

section

variable (compare nodes)

/-- Of two nodes the target lies behind the first or before the second. -/
def Ranked : Prop :=
  nodes.Pairwise fun left right => compare left = .gt ∨ compare right = .lt

def scan : Option α :=
  nodes.find? fun node => compare node = .eq

end

section

variable (ranked : Ranked compare nodes)
include ranked

theorem Ranked.gt_or_lt {i j : Nat} (less : i < j) {left right : α} (here : nodes[i]? = some left)
    (there : nodes[j]? = some right) : compare left = .gt ∨ compare right = .lt := by
  obtain ⟨bound, rfl⟩ := List.getElem?_eq_some_iff.mp here
  obtain ⟨bound', rfl⟩ := List.getElem?_eq_some_iff.mp there
  exact pairwise_iff_getElem.mp ranked i j bound bound' less

theorem Ranked.index_eq {i j : Nat} {left right : α} (here : nodes[i]? = some left)
    (there : nodes[j]? = some right) (match_left : compare left = .eq)
    (match_right : compare right = .eq) : i = j := by
  rcases Nat.lt_trichotomy i j with less | same | more
  · have sides := ranked.gt_or_lt less here there
    rw [match_left, match_right] at sides
    simp at sides
  · exact same
  · have sides := ranked.gt_or_lt more there here
    rw [match_left, match_right] at sides
    simp at sides

theorem scan_eq_some {i : Nat} {node : α} (here : nodes[i]? = some node)
    (matches' : compare node = .eq) : scan compare nodes = some node := by
  cases result : scan compare nodes with
  | none =>
    have missed := find?_eq_none.mp result node (mem_of_getElem? here)
    simp [matches'] at missed
  | some found =>
    obtain ⟨j, there⟩ := getElem?_of_mem (mem_of_find?_eq_some result)
    have foundMatches : compare found = .eq := by simpa using find?_some result
    obtain rfl := ranked.index_eq here there matches' foundMatches
    exact there.symm.trans here

end

theorem scan_eq_none
    (missed : ∀ (i : Nat) node, nodes[i]? = some node → compare node ≠ .eq) :
    scan compare nodes = none := by
  refine find?_eq_none.mpr fun node member => ?_
  obtain ⟨i, here⟩ := getElem?_of_mem member
  simpa using missed i node here

def SecondMatches (compare : α → Ordering) (nodes : List α) : Prop :=
  nodes[1]?.map compare = some .eq

instance : Decidable (SecondMatches compare nodes) :=
  inferInstanceAs (Decidable (nodes[1]?.map compare = some .eq))

section

variable {mid : Nat} {node : α} (ranked : Ranked compare nodes) (here : nodes[mid]? = some node)
include ranked here

theorem Ranked.lt_from (before : compare node = .lt) {i : Nat} {other : α}
    (there : nodes[i]? = some other) (behind : mid ≤ i) : compare other = .lt := by
  rcases Nat.lt_or_eq_of_le behind with less | rfl
  · refine (ranked.gt_or_lt less here there).resolve_left fun isBehind => ?_
    rw [before] at isBehind
    cases isBehind
  · obtain rfl := some.inj (here.symm.trans there)
    exact before

theorem Ranked.gt_upto (behind : compare node = .gt) {i : Nat} {other : α}
    (there : nodes[i]? = some other) (before : i ≤ mid) : compare other = .gt := by
  rcases Nat.lt_or_eq_of_le before with less | rfl
  · refine (ranked.gt_or_lt less there here).resolve_right fun isBefore => ?_
    rw [behind] at isBefore
    cases isBefore
  · obtain rfl := some.inj (here.symm.trans there)
    exact behind

end

theorem scan_crossed {left right : Nat} (apart : right < left)
    (below : ∀ (i : Nat) node, nodes[i]? = some node → i < left → compare node = .gt)
    (above : ∀ (i : Nat) node, nodes[i]? = some node → right < i → compare node = .lt) :
    scan compare nodes = none := by
  refine scan_eq_none fun i node here matched => ?_
  rcases Nat.lt_or_ge i left with low | high
  · rw [below i node here low] at matched
    cases matched
  · rw [above i node here (by omega)] at matched
    cases matched

/-- The search within bounds outside of which no node matches: it agrees with the scan
unless it comes down to the first two nodes and the second one matches. -/
theorem searchLoop_eq (ranked : Ranked compare nodes) (isPrefix : nodes <+: children)
    {fuel left right : Nat} (inside : right < nodes.length) (enough : right + 1 ≤ left + fuel)
    (below : ∀ (i : Nat) node, nodes[i]? = some node → i < left → compare node = .gt)
    (above : ∀ (i : Nat) node, nodes[i]? = some node → right < i → compare node = .lt) :
    searchLoop compare children fuel left right =
      .ok (if left = 0 ∧ SecondSkipped (right + 1) ∧ SecondMatches compare nodes then none
        else scan compare nodes) := by
  induction fuel generalizing left right with
  | zero => rw [searchLoop, scan_crossed (by omega) below above, ite_self]
  | succ fuel ih =>
    unfold searchLoop
    split
    · next within =>
        obtain ⟨mid, middle⟩ : ∃ mid, (left + right) / 2 = mid := ⟨_, rfl⟩
        have bound : mid < nodes.length := by omega
        obtain ⟨node, here⟩ : ∃ node, nodes[mid]? = some node :=
          ⟨_, getElem?_eq_getElem bound⟩
        have found : children[mid]? = some node := by
          obtain ⟨rest, rfl⟩ := isPrefix
          rw [getElem?_append_left bound]
          exact here
        simp only [middle, childAt_eq found, ok_bind]
        split
        · next matched =>
            -- the second node is looked at first only among three or four
            rw [scan_eq_some ranked here matched, if_neg]
            · rfl
            rintro ⟨rfl, skipped, second⟩
            obtain ⟨other, there, same⟩ := map_eq_some_iff.mp second
            obtain rfl := ranked.index_eq there here same matched
            have small : right = 2 ∨ right = 3 := by omega
            rcases small with rfl | rfl <;> exact absurd skipped (by decide)
        · next before =>
            have later := fun (i : Nat) other (there : nodes[i]? = some other) =>
              ranked.lt_from here before there
            split
            · next first =>
                have missed : scan compare nodes = none := by
                  refine scan_eq_none fun i other there matched => ?_
                  rw [later i other there (by omega)] at matched
                  cases matched
                rw [missed, ite_self]
                rfl
            · next notFirst =>
                rw [ih (by omega) (by omega) below fun i other there low =>
                  later i other there (by omega)]
                congr 2
                refine propext (and_congr_right fun atStart => and_congr_left fun _ => ?_)
                have half : mid - 1 + 1 = (right + 1 - 1) / 2 := by omega
                rw [half]
                exact secondSkipped_half (by omega)
        · next behind =>
            have earlier := fun (i : Nat) other (there : nodes[i]? = some other) =>
              ranked.gt_upto here behind there
            split
            · next first =>
                split
                · rfl
                · next found =>
                    -- nothing is lost: the second node is out of bounds or no match
                    have missed : scan compare nodes = none := by
                      refine scan_eq_none fun i other there matched => ?_
                      rcases Nat.lt_or_ge right i with out | within'
                      · rw [above i other there out] at matched
                        cases matched
                      · by_cases atFirst : i = 0
                        · rw [earlier i other there (by omega)] at matched
                          cases matched
                        · obtain rfl : i = 1 := by omega
                          obtain rfl : right = 1 := by omega
                          refine found ⟨by omega, secondSkipped_two, ?_⟩
                          exact map_eq_some_iff.mpr ⟨other, there, matched⟩
                    rw [missed]
                    rfl
            · next notFirst =>
                rw [ih inside (by omega) (fun i other there low =>
                  earlier i other there (by omega)) above, if_neg (by omega), if_neg]
                rintro ⟨rfl, -, second⟩
                obtain ⟨other, there, same⟩ := map_eq_some_iff.mp second
                rw [earlier 1 other there (by omega)] at same
                cases same
    · next apart => rw [scan_crossed (by omega) below above, ite_self]

theorem binarySearch_eq {count : Nat} (ranked : Ranked compare (children.take count))
    (positive : 0 < count) (inside : count ≤ children.length) :
    binarySearch compare children count =
      .ok (if SecondSkipped count ∧ SecondMatches compare (children.take count) then none
        else scan compare (children.take count)) := by
  have length : (children.take count).length = count := length_take_of_le inside
  unfold binarySearch
  rw [if_neg (by omega), searchLoop_eq ranked ( take_prefix _ _) (by omega) (by omega)
    (fun i _ _ low => absurd low (Nat.not_lt_zero i)), Nat.sub_add_cancel positive]
  · simp only [true_and]
  · intro i node here beyond
    have bound := (List.getElem?_eq_some_iff.mp here).1
    omega

theorem map_skipped_eq_iff {β : Type} (f : α → β) (count : Nat) (ranked : Ranked compare nodes) :
    (if SecondSkipped count ∧ SecondMatches compare nodes then none
      else scan compare nodes).map f = (scan compare nodes).map f ↔
      ¬ (SecondSkipped count ∧ SecondMatches compare nodes) := by
  split
  · next skipped =>
      obtain ⟨node, here, matched⟩ := map_eq_some_iff.mp skipped.2
      rw [scan_eq_some ranked here matched]
      exact ⟨fun same => absurd same (by simp), fun spared => absurd skipped spared⟩
  · next spared => exact ⟨fun _ => spared, fun _ => rfl⟩

end

/-- The children of an indirect block: ascending, disjoint ranges that are not empty. -/
structure IndirectBlock.Searchable (block : IndirectBlock) : Prop where
  positive : 1 ≤ block.count
  inside : block.count ≤ block.children.length
  ranges : ∀ child ∈ block.children.take block.count, child.lbaRange.1 ≤ child.lbaRange.2
  apart : (block.children.take block.count).Pairwise fun left right =>
    left.lbaRange.2 < right.lbaRange.1

structure LeafBlock.Searchable (leaf : LeafBlock) : Prop where
  positive : 1 ≤ leaf.count
  inside : leaf.count ≤ leaf.children.length
  ascending : Ordered (leaf.children.take leaf.count)

/-- The child of an indirect block whose range contains an address, by a linear scan. -/
def IndirectBlock.childFor (block : IndirectBlock) (lba : Nat) : Option IndirectRecord :=
  (block.children.take block.count).find? fun child =>
    child.lbaRange.1 ≤ lba ∧ lba ≤ child.lbaRange.2

/-- The record of a leaf block under an address, by a linear scan. -/
def LeafBlock.recordFor (leaf : LeafBlock) (lba : Nat) : Option Record :=
  ((leaf.children.take leaf.count).find? fun child => child.lba = lba).map LeafRecord.record

def IndirectBlock.SecondHas (block : IndirectBlock) (lba : Nat) : Prop :=
  ∃ child, (block.children.take block.count)[1]? = some child ∧
    child.lbaRange.1 ≤ lba ∧ lba ≤ child.lbaRange.2

def LeafBlock.SecondHas (leaf : LeafBlock) (lba : Nat) : Prop :=
  ∃ child, (leaf.children.take leaf.count)[1]? = some child ∧ child.lba = lba

theorem compareRange_eq_iff {lba : Nat} {child : IndirectRecord} :
    Bit.compareRange lba child = .eq ↔ child.lbaRange.1 ≤ lba ∧ lba ≤ child.lbaRange.2 := by
  unfold Bit.compareRange
  split
  · next inside => exact ⟨fun _ => inside, fun _ => rfl⟩
  · next outside =>
      refine ⟨fun same => ?_, fun inside => absurd inside outside⟩
      split at same <;> cases same

theorem compare_lba_eq_iff {lba : Nat} {child : LeafRecord} :
    compare lba child.lba = .eq ↔ child.lba = lba :=
  Nat.compare_eq_eq.trans eq_comm

section

variable {lba : Nat}

theorem IndirectBlock.Searchable.ranked {block : IndirectBlock} (searchable : block.Searchable) :
    Ranked (Bit.compareRange lba) (block.children.take block.count) := by
  refine searchable.apart.imp_of_mem fun {left right} leftMem rightMem apart => ?_
  have leftRange := searchable.ranges left leftMem
  have rightRange := searchable.ranges right rightMem
  unfold Bit.compareRange
  split_ifs <;> first | omega | simp

theorem LeafBlock.Searchable.ranked {leaf : LeafBlock} (searchable : leaf.Searchable) :
    Ranked (fun child : LeafRecord => compare lba child.lba) (leaf.children.take leaf.count) := by
  refine searchable.ascending.imp fun {left right} less => ?_
  rw [Nat.compare_eq_gt, Nat.compare_eq_lt]
  omega

theorem scan_compareRange (block : IndirectBlock) :
    scan (Bit.compareRange lba) (block.children.take block.count) = block.childFor lba := by
  unfold scan IndirectBlock.childFor
  congr 1
  funext child
  exact decide_eq_decide.mpr compareRange_eq_iff

theorem secondMatches_compareRange (block : IndirectBlock) :
    SecondMatches (Bit.compareRange lba) (block.children.take block.count) ↔
      block.SecondHas lba := by
  unfold SecondMatches IndirectBlock.SecondHas
  rw [map_eq_some_iff]
  simp only [compareRange_eq_iff]

theorem secondMatches_compare (leaf : LeafBlock) :
    SecondMatches (fun child : LeafRecord => compare lba child.lba)
      (leaf.children.take leaf.count) ↔ leaf.SecondHas lba := by
  unfold SecondMatches LeafBlock.SecondHas
  rw [map_eq_some_iff]
  simp only [compare_lba_eq_iff]

theorem map_scan_compare (leaf : LeafBlock) :
    (scan (fun child : LeafRecord => compare lba child.lba) (leaf.children.take leaf.count)).map
      LeafRecord.record = leaf.recordFor lba := by
  unfold scan LeafBlock.recordFor
  simp only [compare_lba_eq_iff]

/-- `find_indirect_record` returns, and agrees with the scan unless the address lies in the
second child and the search does not get there. -/
theorem findIndirectRecord_agrees_iff {block : IndirectBlock} (searchable : block.Searchable) :
    (∃ found, Bit.findIndirectRecord block lba = .ok found) ∧
      (Bit.findIndirectRecord block lba = .ok (block.childFor lba) ↔
        ¬ (SecondSkipped block.count ∧ block.SecondHas lba)) := by
  have ranked : Ranked (Bit.compareRange lba) _ := searchable.ranked
  have exact_iff := map_skipped_eq_iff id block.count ranked
  rw [Option.map_id_fun, id, id] at exact_iff
  unfold Bit.findIndirectRecord
  rw [binarySearch_eq ranked searchable.positive searchable.inside, ← scan_compareRange,
    ← secondMatches_compareRange, Except.ok.injEq]
  exact ⟨⟨_, rfl⟩, exact_iff⟩

theorem findRecordInLeafblock_agrees_iff {leaf : LeafBlock} (searchable : leaf.Searchable) :
    (∃ found, Bit.findRecordInLeafblock leaf lba = .ok found) ∧
      (Bit.findRecordInLeafblock leaf lba = .ok (leaf.recordFor lba) ↔
        ¬ (SecondSkipped leaf.count ∧ leaf.SecondHas lba)) := by
  have ranked : Ranked (fun child : LeafRecord => compare lba child.lba) _ := searchable.ranked
  unfold Bit.findRecordInLeafblock
  rw [binarySearch_eq ranked searchable.positive searchable.inside, ok_bind, ← map_scan_compare,
    ← secondMatches_compare]
  exact ⟨⟨_, rfl⟩, (iff_of_eq (Except.ok.injEq _ _)).trans
    (map_skipped_eq_iff LeafRecord.record leaf.count ranked)⟩

/-- Both searches return on every block, and agree with the scans unless the address is that
of the second child and the number of children leads past it. -/
theorem node_searches_agree_iff (lba : Nat) :
    (∀ block : IndirectBlock, block.Searchable →
      (∃ found, Bit.findIndirectRecord block lba = .ok found) ∧
      (Bit.findIndirectRecord block lba = .ok (block.childFor lba) ↔
        ¬ (SecondSkipped block.count ∧ block.SecondHas lba))) ∧
    ∀ leaf : LeafBlock, leaf.Searchable →
      (∃ found, Bit.findRecordInLeafblock leaf lba = .ok found) ∧
      (Bit.findRecordInLeafblock leaf lba = .ok (leaf.recordFor lba) ↔
        ¬ (SecondSkipped leaf.count ∧ leaf.SecondHas lba)) :=
  ⟨fun _ searchable => findIndirectRecord_agrees_iff searchable,
    fun _ searchable => findRecordInLeafblock_agrees_iff searchable⟩

end

def consecutiveLeaf (count : Nat) : LeafBlock :=
  ⟨count, (List.range count).map fun lba => ⟨lba, LeafRecord.blank.record⟩⟩

def consecutiveIndirect (count : Nat) : IndirectBlock :=
  ⟨count, (List.range count).map fun lba => ⟨(lba, lba), LeafRecord.blank.record⟩⟩

theorem node_searches_agree_three :
    Bit.findIndirectRecord (consecutiveIndirect 3) 1 = .ok ((consecutiveIndirect 3).childFor 1) ∧
    Bit.findRecordInLeafblock (consecutiveLeaf 3) 1 = .ok ((consecutiveLeaf 3).recordFor 1) := by
  have indirect : (consecutiveIndirect 3).Searchable :=
    ⟨by decide, by decide, by decide, by decide⟩
  have leaf : (consecutiveLeaf 3).Searchable :=
    ⟨by decide, by decide, by unfold Ordered; decide⟩
  have spared : ¬ SecondSkipped 3 := by decide
  obtain ⟨indirects, leaves⟩ := node_searches_agree_iff 1
  exact ⟨(indirects _ indirect).2.mpr fun skipped => spared skipped.1,
    (leaves _ leaf).2.mpr fun skipped => spared skipped.1⟩

/-- Of two children the second one is never found. -/
theorem second_of_two_not_found :
    (consecutiveIndirect 2).Searchable ∧ (consecutiveLeaf 2).Searchable ∧
    ((consecutiveIndirect 2).childFor 1).isSome ∧
    Bit.findIndirectRecord (consecutiveIndirect 2) 1 = .ok none ∧
    ((consecutiveLeaf 2).recordFor 1).isSome ∧
    Bit.findRecordInLeafblock (consecutiveLeaf 2) 1 = .ok none := by
  refine ⟨⟨by decide, by decide, by decide, by decide⟩,
    ⟨by decide, by decide, by unfold Ordered; decide⟩, by decide, rfl, by decide, rfl⟩

end SwornDisk.Rust

import SwornDisk.C.BitBuilder

/-!
# The trees that builders make

What lies behind a pointer of the builder is a tree of one height whose leaves
hold a run of the entries.  A search in a region that has every sealed node where
its pointer says finds exactly the entries of the tree it starts from.
-/

namespace SwornDisk.C.Bit

open Lib List Option

variable {K I M G V : Type}

def EndsWith (entries : List (Nat × V)) (key : Nat) : Prop :=
  entries.getLast?.map Prod.fst = some key

def Subtree (log : List (SealedNode K I V)) : Nat → Child K I → List (Nat × V) → Prop
  | 0, child, entries => child.isLeaf = true ∧ EndsWith entries child.key ∧
      ∃ next, ⟨child.pointer, .leaf ⟨entries, next⟩⟩ ∈ log
  | height + 1, child, entries => child.isLeaf = false ∧ EndsWith entries child.key ∧
      ∃ children parts, ⟨child.pointer, .inner children⟩ ∈ log ∧
        List.Forall₂ (Subtree log height) children parts ∧ entries = parts.flatten

def Intact (aead : IdealAead K I M (Node K I V) G) (region : Region M G)
    (log : List (SealedNode K I V)) : Prop :=
  ∀ made ∈ log, region made.pointer.pos made.node.isLeaf =
    nodeEncode aead made.node made.pointer.key made.pointer.iv

section

variable {log : List (SealedNode K I V)} {height : Nat} {child : Child K I}
  {entries : List (Nat × V)}

theorem Subtree.endsWith (tree : Subtree log height child entries) :
    EndsWith entries child.key := by
  cases height with
  | zero => exact tree.2.1
  | succ height => exact tree.2.1

theorem EndsWith.le {key : Nat} (ends : EndsWith entries key) (ascending : Ascending entries) :
    ∀ entry ∈ entries, entry.1 ≤ key := by
  obtain ⟨last, isLast, rfl⟩ := map_eq_some_iff.mp ends
  obtain ⟨init, rfl⟩ := getLast?_eq_some_iff.mp isLast
  intro entry member
  rcases mem_append.mp member with inInit | isEnd
  · exact Nat.le_of_lt ((pairwise_append.mp ascending).2.2 entry inInit last
      mem_cons_self)
  · rw [mem_singleton.mp isEnd]

theorem EndsWith.mem {key : Nat} (ends : EndsWith entries key) : ∃ val, (key, val) ∈ entries := by
  obtain ⟨last, isLast, rfl⟩ := map_eq_some_iff.mp ends
  exact ⟨last.2, mem_of_getLast? isLast⟩

theorem routed_of_forall₂ {children : List (Child K I)} {parts : List (List (Nat × V))}
    (trees : List.Forall₂ (Subtree log height) children parts)
    (ascending : Ascending parts.flatten) (key : Nat) :
    match routeChild children key with
    | some child => ∃ part ∈ parts, Subtree log height child part ∧
        parts.flatten.lookup key = part.lookup key
    | none => parts.flatten.lookup key = none := by
  induction trees with
  | nil => rfl
  | @cons child part children parts tree trees ih =>
    obtain ⟨ascendingPart, ascendingRest, across⟩ := pairwise_append.mp ascending
    have upTo := tree.endsWith.le ascendingPart
    rw [flatten_cons, lookup_append, routeChild_cons]
    by_cases routed : key ≤ child.key
    · rw [if_pos routed]
      refine ⟨part, mem_cons_self, tree, ?_⟩
      obtain ⟨val, lastMember⟩ := tree.endsWith.mem
      have absent : parts.flatten.lookup key = none := by
        apply lookup_eq_none_of_forall_ne
        intro entry member
        have beyond := across _ lastMember entry member
        simp only at beyond
        omega
      rw [absent, or_none]
    · have absent : part.lookup key = none := by
        apply lookup_eq_none_of_forall_ne
        intro entry member
        have within := upTo entry member
        omega
      rw [if_neg routed, absent, none_or]
      have later := ih ascendingRest
      split at later
      · obtain ⟨held, member, deeper, equal⟩ := later
        exact ⟨held, mem_cons_of_mem _ member, deeper, equal⟩
      · exact later

/-- What a search for a key in a run of entries comes to: a leaf that has its
record, or no data. -/
def Answers (entries : List (Nat × V)) (key : Nat) (result : Except Errno (Leaf K I V)) : Prop :=
  match entries.lookup key with
  | some val => ∃ leaf, result = .ok leaf ∧ leaf.entries.lookup key = some val ∧
      ∀ entry ∈ leaf.entries, entry ∈ entries
  | none => result = .error .enodata

variable {aead : IdealAead K I M (Node K I V) G} {region : Region M G}
  (intact : Intact aead region log)
include intact

theorem Intact.opens {made : SealedNode K I V} (member : made ∈ log) :
    nodeDecode aead (region made.pointer.pos made.node.isLeaf) made.pointer.key
      made.pointer.iv = some made.node := by
  rw [intact made member]
  exact aead.decrypt_encrypt rfl

theorem Subtree.search (tree : Subtree log height child entries) (ascending : Ascending entries)
    (key : Nat) {bound : Nat} (enough : height < bound) :
    Answers entries key (searchLeafFrom aead region key bound child.isLeaf child.pointer) := by
  induction height generalizing child entries bound with
  | zero =>
    obtain ⟨isLeaf, -, next, member⟩ := tree
    obtain ⟨bound, rfl⟩ := Nat.exists_eq_succ_of_ne_zero (Nat.ne_of_gt enough)
    have opens := intact.opens member
    unfold searchLeafFrom Answers leafSearch
    rw [isLeaf]
    simp only [Node.isLeaf] at opens
    rw [opens]
    simp only
    cases held : entries.lookup key with
    | some val => exact ⟨⟨entries, next⟩, rfl, held, fun entry inLeaf => inLeaf⟩
    | none => rfl
  | succ height ih =>
    obtain ⟨isInner, -, children, parts, member, trees, rfl⟩ := tree
    obtain ⟨bound, rfl⟩ := Nat.exists_eq_succ_of_ne_zero (Nat.ne_of_gt (Nat.zero_lt_of_lt enough))
    have opens := intact.opens member
    unfold searchLeafFrom
    rw [isInner]
    simp only [Node.isLeaf] at opens
    rw [opens]
    have routed := routed_of_forall₂ trees ascending key
    simp only
    cases chosen : routeChild children key with
    | some next =>
      rw [chosen] at routed
      obtain ⟨part, inParts, deeper, same⟩ := routed
      have ascendingPart : Ascending part :=
        (pairwise_flatten.mp ascending).1 part inParts
      have answers := ih deeper ascendingPart (Nat.lt_of_succ_lt_succ enough)
      unfold Answers at answers ⊢
      rw [same]
      cases held : part.lookup key with
      | some val =>
        rw [held] at answers
        obtain ⟨leaf, found, has, subset⟩ := answers
        exact ⟨leaf, found, has, fun entry inLeaf =>
          mem_flatten_of_mem inParts (subset entry inLeaf)⟩
      | none =>
        rw [held] at answers
        exact answers
    | none =>
      rw [chosen] at routed
      unfold Answers
      rw [show parts.flatten.lookup key = none from routed]

end

end SwornDisk.C.Bit

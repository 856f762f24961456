import Mathlib

/-!
# Merging sorted sources by their heads

Each source is a list in strictly ascending order of a key; later sources are newer.  A
round of the merge takes the least key among the heads, with the element of the newest
source that has it, and drops that key from all sources.
-/

namespace SwornDisk.Lib.HeadMerge

open List Function

variable {α : Type}

def Ascending (key : α → Nat) (source : List α) : Prop :=
  source.Pairwise fun left right => key left < key right

def newestOf (key : α → Nat) (sources : List (List α)) (k : Nat) : Option α :=
  sources.reverse.findSome? fun source => source.find? fun element => key element = k

/-- Every key of the sources once, in ascending order, with the newest element under it. -/
structure IsMerge (key : α → Nat) (sources : List (List α)) (out : List α) : Prop where
  ascending : Ascending key out
  newest : ∀ k, out.find? (fun element => key element = k) = newestOf key sources k

def dropLeast (key : α → Nat) (k : Nat) : List α → List α
  | [] => []
  | head :: rest => if key head = k then rest else head :: rest

theorem dropLeast_cons (key : α → Nat) (k : Nat) (head : α) (rest : List α) :
    dropLeast key k (head :: rest) = if key head = k then rest else head :: rest := rfl

variable {key : α → Nat} {source out : List α} {sources : List (List α)} {k other : Nat}
  {element : α}

theorem mem_dropLeast (ascending : Ascending key source) (lower : ∀ e ∈ source, k ≤ key e) :
    element ∈ dropLeast key k source ↔ element ∈ source ∧ key element ≠ k := by
  cases source with
  | nil => simp [dropLeast]
  | cons head rest =>
    have above := (pairwise_cons.mp ascending).1
    have least := lower head mem_cons_self
    rw [dropLeast_cons]
    split
    · next here =>
        constructor
        · intro member
          have less := above element member
          exact ⟨mem_cons_of_mem _ member, by omega⟩
        · rintro ⟨member, differ⟩
          rcases mem_cons.mp member with rfl | inRest
          · exact absurd here differ
          · exact inRest
    · next there =>
        refine ⟨fun member => ⟨member, ?_⟩, fun both => both.1⟩
        rcases mem_cons.mp member with rfl | inRest
        · exact there
        · have less := above element inRest
          omega

theorem Ascending.dropLeast (ascending : Ascending key source) :
    Ascending key (dropLeast key k source) := by
  cases source with
  | nil => exact ascending
  | cons head rest =>
    rw [dropLeast_cons]
    split
    · exact (pairwise_cons.mp ascending).2
    · exact ascending

theorem find?_dropLeast (differ : other ≠ k) :
    (dropLeast key k source).find? (fun e => key e = other) =
      source.find? fun e => key e = other := by
  cases source with
  | nil => rfl
  | cons head rest =>
    rw [dropLeast_cons]
    split
    · next here => rw [find?_cons_of_neg (by simpa [here] using differ.symm)]
    · rfl

theorem Ascending.find?_eq_some (ascending : Ascending key source) (member : element ∈ source) :
    source.find? (fun e => key e = key element) = some element := by
  induction source with
  | nil => cases member
  | cons head rest ih =>
    obtain ⟨above, later⟩ := pairwise_cons.mp ascending
    rcases mem_cons.mp member with rfl | inRest
    · exact find?_cons_of_pos (by simp)
    · have less := above element inRest
      rw [find?_cons_of_neg (by simpa using Nat.ne_of_lt less)]
      exact ih later inRest

theorem newestOf_eq_none_iff :
    newestOf key sources k = none ↔ ∀ source ∈ sources, ∀ e ∈ source, key e ≠ k := by
  unfold newestOf
  rw [findSome?_eq_none_iff]
  simp only [mem_reverse, find?_eq_none, decide_eq_true_eq]

theorem newestOf_map_eq {change : List α → List α}
    (same : ∀ source, (change source).find? (fun e => key e = k) =
      source.find? fun e => key e = k) :
    newestOf key (sources.map change) k = newestOf key sources k := by
  unfold newestOf
  rw [← map_reverse, findSome?_map]
  congr 1
  funext source
  exact same source

theorem newestOf_eq_some {before after : List (List α)}
    (found : source.find? (fun e => key e = k) = some element)
    (newer : ∀ later ∈ after, ∀ e ∈ later, key e ≠ k) :
    newestOf key (before ++ source :: after) k = some element := by
  have none' : after.reverse.findSome? (fun later => later.find? fun e => key e = k) = none :=
    newestOf_eq_none_iff.mpr newer
  unfold newestOf
  rw [reverse_append, reverse_cons, append_assoc, findSome?_append, none',
    Option.none_or, singleton_append, findSome?_cons, found]

theorem isMerge_nil (empty : ∀ source ∈ sources, source = []) : IsMerge key sources [] where
  ascending := List.Pairwise.nil
  newest k := by
    refine (newestOf_eq_none_iff.mpr fun source member e inside => ?_).symm
    rw [empty source member] at inside
    cases inside

theorem IsMerge.cons (ascending : ∀ source ∈ sources, Ascending key source)
    (lower : ∀ source ∈ sources, ∀ e ∈ source, key element ≤ key e)
    (newest : newestOf key sources (key element) = some element)
    (merge : IsMerge key (sources.map (dropLeast key (key element))) out) :
    IsMerge key sources (element :: out) where
  ascending := by
    refine pairwise_cons.mpr ⟨fun later member => ?_, merge.ascending⟩
    have found := merge.newest (key later)
    rw [merge.ascending.find?_eq_some member] at found
    by_contra notLess
    refine Option.some_ne_none later (found.trans (newestOf_eq_none_iff.mpr ?_))
    intro dropped inSources e inside same
    obtain ⟨source, isSource, rfl⟩ := mem_map.mp inSources
    obtain ⟨inSource, differ⟩ :=
      (mem_dropLeast (ascending source isSource) (lower source isSource)).mp inside
    have least := lower source isSource e inSource
    omega
  newest k := by
    by_cases here : key element = k
    · subst here
      rw [find?_cons_of_pos (by simp), newest]
    · rw [find?_cons_of_neg (by simpa using here), merge.newest]
      exact newestOf_map_eq fun source => find?_dropLeast (Ne.symm here)

theorem length_flatten_dropLeast_lt {head : α} {rest : List α} (here : (head :: rest) ∈ sources)
    (least : key head = k) :
    (sources.map (dropLeast key k)).flatten.length < sources.flatten.length := by
  have shorter : ∀ source, (dropLeast key k source).length ≤ source.length := by
    intro source
    cases source with
    | nil => exact le_rfl
    | cons head rest =>
      rw [dropLeast_cons]
      split
      · exact Nat.le_succ _
      · exact le_rfl
  rw [length_flatten, length_flatten, map_map]
  refine sum_lt_sum _ _ (fun source _ => shorter source) ⟨_, here, ?_⟩
  rw [comp_apply, dropLeast_cons, if_pos least]
  exact Nat.lt_succ_self _

theorem IsMerge.length_eq (merge : IsMerge key sources out) :
    out.length = (sources.flatten.map key).toFinset.card := by
  have nodup : (out.map key).Nodup :=
    pairwise_map.mpr (merge.ascending.imp fun less => Nat.ne_of_lt less)
  have keys : (out.map key).toFinset = (sources.flatten.map key).toFinset := by
    ext k
    rw [mem_toFinset, mem_toFinset]
    have found := merge.newest k
    constructor
    · intro member
      obtain ⟨e, inOut, rfl⟩ := mem_map.mp member
      rw [merge.ascending.find?_eq_some inOut] at found
      by_contra absent
      refine Option.some_ne_none e (found.trans (newestOf_eq_none_iff.mpr ?_))
      intro source isSource e' inside same
      exact absent (mem_map.mpr ⟨e', mem_flatten_of_mem isSource inside, same⟩)
    · intro member
      obtain ⟨e, inFlat, rfl⟩ := mem_map.mp member
      obtain ⟨source, isSource, inside⟩ := mem_flatten.mp inFlat
      by_contra absent
      have none' : out.find? (fun e' => key e' = key e) = none := by
        refine find?_eq_none.mpr fun e' inOut => ?_
        rw [decide_eq_true_eq]
        exact fun same => absent (mem_map.mpr ⟨e', inOut, same⟩)
      rw [none'] at found
      exact newestOf_eq_none_iff.mp found.symm source isSource e inside rfl
  rw [← keys, toFinset_card_of_nodup nodup, length_map]

end SwornDisk.Lib.HeadMerge

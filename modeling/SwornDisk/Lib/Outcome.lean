import Mathlib.Data.List.Basic

/-!
# Runs without a defined result

A run that reads an indeterminate value has no result, written `none`.  `Achieves` states for such
a run when it has a result and what every result satisfies; it composes along `Option.bind`.

A walk over a linked list whose body frees the node it is at goes on from memory that was given
back.  `walkFreed` is that walk: it ends without a result at the first node whose link is not
what it was.
-/

namespace SwornDisk.Lib

variable {α β : Type}

/-- A run that has a result if `total` holds, and every result of which meets `post`. -/
structure Achieves (total : Prop) (run : Option α) (post : α → Prop) : Prop where
  completes : total → ∃ result, run = some result
  meets : ∀ result, run = some result → post result

namespace Achieves

variable {total : Prop} {run : Option α} {mid post : α → Prop} {result : α}

theorem of_some (ran : run = some result) (holds : post result) : Achieves total run post where
  completes _ := ⟨result, ran⟩
  meets _ done := Option.some.inj (ran.symm.trans done) ▸ holds

theorem mono (achieves : Achieves total run mid) (weaker : ∀ result, mid result → post result) :
    Achieves total run post :=
  ⟨achieves.completes, fun result ran => weaker result (achieves.meets result ran)⟩

theorem bind {next : α → Option β} {post : β → Prop} (first : Achieves total run mid)
    (second : ∀ result, run = some result → mid result → Achieves total (next result) post) :
    Achieves total (run.bind next) post where
  completes holds := by
    obtain ⟨result, ran⟩ := first.completes holds
    obtain ⟨last, ranOn⟩ := (second result ran (first.meets result ran)).completes holds
    exact ⟨last, by rw [ran]; exact ranOn⟩
  meets last done := by
    obtain ⟨result, ran, ranOn⟩ := Option.bind_eq_some_iff.mp done
    exact (second result ran (first.meets result ran)).meets last ranOn

theorem map {change : α → β} {post : β → Prop}
    (achieves : Achieves total run fun result => post (change result)) :
    Achieves total (run.map change) post where
  completes holds := by
    obtain ⟨result, ran⟩ := achieves.completes holds
    exact ⟨change result, by rw [ran]; rfl⟩
  meets last done := by
    obtain ⟨result, ran, rfl⟩ := Option.map_eq_some_iff.mp done
    exact achieves.meets result ran

end Achieves

/-- A walk whose body frees each node.  `intact node` says that the link of the freed `node` still
leads where it led. -/
def walkFreed (intact : α → Bool) (body : β → α → β) : β → List α → Option β
  | state, [] => some state
  | state, node :: rest =>
    if intact node then walkFreed intact body (body state node) rest else none

theorem walkFreed_eq_some_iff {intact : α → Bool} {body : β → α → β} {state result : β}
    {nodes : List α} : walkFreed intact body state nodes = some result ↔
      (∀ node ∈ nodes, intact node = true) ∧ nodes.foldl body state = result := by
  induction nodes generalizing state with
  | nil => simp [walkFreed]
  | cons node rest ih =>
    rw [walkFreed, List.foldl_cons, List.forall_mem_cons]
    cases intact node with
    | false => simp
    | true => rw [if_pos rfl, ih, eq_self, true_and]

end SwornDisk.Lib

import Mathlib.Init

/-!
# Programs that change a state and may stop

A program reads and changes a state and either returns a value or stops with a fault; the
state reached is kept in both cases.  `wp` is its weakest precondition for a condition on
the returned value and one on the fault, with a rule for each construct.
-/

namespace SwornDisk.Lib

@[simp] theorem ok_bind {ε α β : Type} (value : α) (next : α → Except ε β) :
    (Except.ok value >>= next) = next value := rfl

theorem bind_eq_ok {ε α β : Type} {first : Except ε α} {next : α → Except ε β} {result : β} :
    (first >>= next) = .ok result ↔ ∃ value, first = .ok value ∧ next value = .ok result := by
  constructor
  · intro done
    cases first with
    | ok value => exact ⟨value, rfl, done⟩
    | error fault => cases done
  · rintro ⟨value, rfl, done⟩
    exact done

theorem mapM_ok {ε α β : Type} {f : α → Except ε β} {g : α → β} {xs : List α}
    (each : ∀ x ∈ xs, f x = .ok (g x)) : xs.mapM f = .ok (xs.map g) := by
  induction xs with
  | nil => rfl
  | cons x xs ih =>
    rw [List.mapM_cons, each x List.mem_cons_self, ok_bind,
      ih fun y member => each y (List.mem_cons_of_mem _ member)]
    rfl

/-- Programs over the state `σ` with faults in `ε`. -/
abbrev Program (ε σ α : Type) : Type := ExceptT ε (StateM σ) α

namespace Program

variable {ε σ α β : Type}

def exec (prog : Program ε σ α) (s : σ) : Except ε α × σ := StateT.run (ExceptT.run prog) s

def ofExcept (result : Except ε α) : Program ε σ α := ExceptT.mk (pure result)

/-- A normal end satisfies `post`, a stop satisfies `stop`. -/
def wp (prog : Program ε σ α) (post : α → σ → Prop) (stop : ε → σ → Prop) (s : σ) : Prop :=
  match prog.exec s with
  | (.ok value, s') => post value s'
  | (.error fault, s') => stop fault s'

variable {prog : Program ε σ α} {next : α → Program ε σ β}
  {post : α → σ → Prop} {stop : ε → σ → Prop} {s : σ}

@[simp] theorem exec_pure (value : α) (s : σ) :
    (pure value : Program ε σ α).exec s = (.ok value, s) := rfl

@[simp] theorem exec_get (s : σ) : (get : Program ε σ σ).exec s = (.ok s, s) := rfl

@[simp] theorem exec_set (s' s : σ) : (set s' : Program ε σ PUnit).exec s = (.ok ⟨⟩, s') := rfl

@[simp] theorem exec_ofExcept (result : Except ε α) (s : σ) :
    (ofExcept result : Program ε σ α).exec s = (result, s) := rfl

theorem exec_bind (prog : Program ε σ α) (next : α → Program ε σ β) (s : σ) :
    (prog >>= next).exec s =
      match prog.exec s with
      | (.ok value, s') => (next value).exec s'
      | (.error fault, s') => (.error fault, s') := by
  unfold exec
  simp only [ExceptT.run_bind, StateT.run_bind]
  rcases StateT.run (ExceptT.run prog) s with ⟨result, s'⟩
  cases result <;> rfl

@[simp] theorem wp_pure (value : α) : wp (pure value) post stop s ↔ post value s := Iff.rfl

@[simp] theorem wp_throw (fault : ε) : wp (throw fault) post stop s ↔ stop fault s := Iff.rfl

@[simp] theorem wp_get {post : σ → σ → Prop} : wp get post stop s ↔ post s s := Iff.rfl

@[simp] theorem wp_set {post : PUnit → σ → Prop} (s' : σ) : wp (set s') post stop s ↔ post ⟨⟩ s' :=
  Iff.rfl

theorem wp_ofExcept_error (fault : ε) :
    wp (ofExcept (.error fault)) post stop s ↔ stop fault s := Iff.rfl

theorem wp_bind {post : β → σ → Prop} :
    wp (prog >>= next) post stop s ↔ wp prog (fun value => wp (next value) post stop) stop s := by
  unfold wp
  rw [exec_bind]
  rcases prog.exec s with ⟨result, s'⟩
  cases result <;> rfl

theorem wp_ok_bind {post : β → σ → Prop} (value : α) :
    wp (ofExcept (.ok value) >>= next) post stop s ↔ wp (next value) post stop s :=
  wp_bind

theorem wp_mono {post' : α → σ → Prop} {stop' : ε → σ → Prop} (holds : wp prog post stop s)
    (weaker : ∀ value s', post value s' → post' value s')
    (weakerStop : ∀ fault s', stop fault s' → stop' fault s') : wp prog post' stop' s := by
  unfold wp at holds ⊢
  generalize prog.exec s = outcome at holds ⊢
  obtain ⟨result, s'⟩ := outcome
  cases result with
  | ok value => exact weaker value s' holds
  | error fault => exact weakerStop fault s' holds

theorem wp_seq {mid : α → σ → Prop} {post : β → σ → Prop} {stop' : ε → σ → Prop}
    (first : wp prog mid stop s)
    (second : ∀ value s', mid value s' → wp (next value) post stop' s')
    (stops : ∀ fault s', stop fault s' → stop' fault s') : wp (prog >>= next) post stop' s :=
  wp_bind.mpr (wp_mono first second stops)

theorem wp_trivial : wp prog (fun _ _ => True) (fun _ _ => True) s := by
  unfold wp
  rcases prog.exec s with ⟨_ | _, _⟩ <;> trivial

theorem wp_and {post' : α → σ → Prop} {stop' : ε → σ → Prop} (first : wp prog post stop s)
    (second : wp prog post' stop' s) :
    wp prog (fun value s' => post value s' ∧ post' value s')
      (fun fault s' => stop fault s' ∧ stop' fault s') s := by
  unfold wp at first second ⊢
  generalize prog.exec s = outcome at first second ⊢
  obtain ⟨result, s'⟩ := outcome
  cases result <;> exact ⟨first, second⟩

theorem wp_ofExcept {result : Except ε α} (ok : ∀ value, result = .ok value → post value s)
    (error : ∀ fault, result = .error fault → stop fault s) :
    wp (ofExcept result) post stop s := by
  cases result with
  | ok value => exact ok value rfl
  | error fault => exact error fault rfl

theorem wp_seqExcept {result : Except ε α} {post : β → σ → Prop}
    (ok : ∀ value, result = .ok value → wp (next value) post stop s)
    (error : ∀ fault, result = .error fault → stop fault s) :
    wp (ofExcept result >>= next) post stop s :=
  wp_bind.mpr (wp_ofExcept ok error)

theorem wp_exec {post : σ → Prop} (holds : wp prog (fun _ => post) (fun _ => post) s) :
    post (prog.exec s).2 := by
  unfold wp at holds
  rcases result : prog.exec s with ⟨_ | _, s'⟩ <;> rw [result] at holds <;> exact holds

theorem wp_of_exec {prog' : Program ε σ α} {s' : σ} (same : prog.exec s = prog'.exec s')
    (holds : wp prog' post stop s') : wp prog post stop s := by
  unfold wp
  rw [same]
  exact holds

theorem wp_of_ok {value : α} {s' : σ} (run : prog.exec s = (.ok value, s'))
    (holds : post value s') : wp prog post stop s := by
  unfold wp
  rw [run]
  exact holds

theorem wp_outcome (holds : wp prog post stop s) :
    (∃ value s', prog.exec s = (.ok value, s') ∧ post value s') ∨
      ∃ fault s', prog.exec s = (.error fault, s') ∧ stop fault s' := by
  unfold wp at holds
  rcases run : prog.exec s with ⟨fault | value, s'⟩ <;> rw [run] at holds
  · exact .inr ⟨fault, s', rfl, holds⟩
  · exact .inl ⟨value, s', rfl, holds⟩

end Program

end SwornDisk.Lib

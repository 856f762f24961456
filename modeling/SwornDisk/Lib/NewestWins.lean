import Mathlib

/-!
# Newest-wins lookup

A log-structured index is a list of partial maps, newest first; a key has the
value of the first map that holds it.  The lemmas say how this lookup behaves
under concatenation and when a block of maps is replaced by its merge.
-/

namespace SwornDisk.Lib

open List Function

variable {κ ν : Type}

/-- Value of a key in a list of partial maps, the newest map first. -/
def lookupFirst (sources : List (κ → Option ν)) (key : κ) : Option ν :=
  sources.findSome? fun source => source key

@[simp] theorem lookupFirst_nil (key : κ) :
    lookupFirst ([] : List (κ → Option ν)) key = none :=
  rfl

@[simp] theorem lookupFirst_cons (source : κ → Option ν) (sources : List (κ → Option ν))
    (key : κ) :
    lookupFirst (source :: sources) key = (source key).or (lookupFirst sources key) := by
  rw [lookupFirst, findSome?_cons, lookupFirst]
  cases source key <;> rfl

@[simp] theorem lookupFirst_append (newer older : List (κ → Option ν)) (key : κ) :
    lookupFirst (newer ++ older) key = (lookupFirst newer key).or (lookupFirst older key) :=
  findSome?_append

theorem lookupFirst_update [DecidableEq κ] (source : κ → Option ν)
    (older : List (κ → Option ν)) (stored : κ) (value : ν) :
    lookupFirst (update source stored (some value) :: older) =
      update (lookupFirst (source :: older)) stored (some value) := by
  funext key
  by_cases same : key = stored
  · subst same
    simp
  · simp [update_of_ne same]

end SwornDisk.Lib

import Mathlib

/-!
# Ideal authenticated encryption

An authenticated encryption scheme with a sequence number, in the ideal form: a
ciphertext opens exactly when it is the encryption of the result, and under one
key, initial vector and sequence number the tag determines the plaintext.
-/

namespace SwornDisk.Lib

/-- Encryption of `π` to `γ` with keys `κ`, initial vectors `ι` and tags `μ`. -/
structure IdealAead (κ ι μ π γ : Type) where
  encrypt : κ → ι → Nat → π → γ × μ
  decrypt : κ → ι → μ → Nat → γ → Option π
  decrypt_eq_some_iff : ∀ {key iv mac seq cipher plain},
    decrypt key iv mac seq cipher = some plain ↔ encrypt key iv seq plain = (cipher, mac)
  plain_of_mac : ∀ {key iv seq left right},
    (encrypt key iv seq left).2 = (encrypt key iv seq right).2 → left = right

namespace IdealAead

variable {κ ι μ π γ : Type} (aead : IdealAead κ ι μ π γ)
  {key : κ} {iv : ι} {seq : Nat} {plain : π} {cipher : γ} {mac : μ}
  (sealed : aead.encrypt key iv seq plain = (cipher, mac))
include sealed

theorem decrypt_encrypt : aead.decrypt key iv mac seq cipher = some plain :=
  aead.decrypt_eq_some_iff.mpr sealed

/-- Whatever opens under a tag that was computed for `plain` opens to `plain`. -/
theorem eq_of_decrypt {opened : π} {forged : γ}
    (accepted : aead.decrypt key iv mac seq forged = some opened) : opened = plain := by
  have resealed := aead.decrypt_eq_some_iff.mp accepted
  have sameTag : (aead.encrypt key iv seq opened).2 = (aead.encrypt key iv seq plain).2 := by
    rw [sealed, resealed]
  exact aead.plain_of_mac sameTag

end IdealAead

/-- A scheme that tags every plaintext with all that went into its encryption. -/
def transparentAead (κ ι π : Type) [DecidableEq κ] [DecidableEq ι] [DecidableEq π] :
    IdealAead κ ι (κ × ι × Nat × π) π π where
  encrypt key iv seq plain := (plain, (key, iv, seq, plain))
  decrypt key iv mac seq cipher := if mac = (key, iv, seq, cipher) then some cipher else none
  decrypt_eq_some_iff := by
    intro key iv mac seq cipher plain
    simp only [Option.ite_none_right_eq_some, Option.some.injEq, Prod.mk.injEq]
    constructor
    · rintro ⟨rfl, rfl⟩
      exact ⟨rfl, rfl⟩
    · rintro ⟨rfl, rfl⟩
      exact ⟨rfl, rfl⟩
  plain_of_mac := by
    intro key iv seq left right equal
    simpa using equal

/-- Authenticated encryption of byte strings in place, as far as honest use of it goes:
the length is kept and what was encrypted opens. -/
structure ByteAead (κ ι μ : Type) where
  encrypt : κ → ι → List UInt8 → List UInt8 × μ
  decrypt : κ → μ → ι → List UInt8 → Option (List UInt8)
  length_encrypt : ∀ key nonce plain, (encrypt key nonce plain).1.length = plain.length
  decrypt_encrypt : ∀ key nonce plain,
    decrypt key (encrypt key nonce plain).2 nonce (encrypt key nonce plain).1 = some plain

end SwornDisk.Lib

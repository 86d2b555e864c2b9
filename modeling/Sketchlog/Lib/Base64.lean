import Mathlib.Data.List.Basic
import Mathlib.Tactic.Common

/-!
# Base64 without padding

Three bytes are four digits of six bits; one or two bytes at the end are two or three digits.
Without padding the number of digits tells how many bytes there are, so different bytes have
different texts (`encode_injective`). The URL-safe alphabet has no slash (`slash_not_mem_encode`).
-/

namespace Base64

/-- The digits of a list of bytes. -/
def digits : List UInt8 → List ℕ
  | [] => []
  | [a] => [a.toNat / 4, a.toNat % 4 * 16]
  | [a, b] => [a.toNat / 4, a.toNat % 4 * 16 + b.toNat / 16, b.toNat % 16 * 4]
  | a :: b :: c :: rest =>
    a.toNat / 4 :: (a.toNat % 4 * 16 + b.toNat / 16) :: (b.toNat % 16 * 4 + c.toNat / 64)
      :: c.toNat % 64 :: digits rest

/-- The URL-safe alphabet. -/
def letter (d : ℕ) : Char :=
  if d < 26 then Char.ofNat (65 + d)
  else if d < 52 then Char.ofNat (97 + (d - 26))
  else if d < 62 then Char.ofNat (48 + (d - 52))
  else if d = 62 then '-' else '_'

/-- The text of a list of bytes. -/
def encode (bytes : List UInt8) : List Char := (digits bytes).map letter

theorem digits_lt (bytes : List UInt8) : ∀ d ∈ digits bytes, d < 64 := by
  induction bytes using digits.induct with
  | case1 => simp [digits]
  | case2 a =>
    have ha := a.toNat_lt
    simp only [digits, List.mem_cons, List.not_mem_nil, or_false]
    omega
  | case3 a b =>
    have ha := a.toNat_lt
    have hb := b.toNat_lt
    simp only [digits, List.mem_cons, List.not_mem_nil, or_false]
    omega
  | case4 a b c rest ih =>
    have ha := a.toNat_lt
    have hb := b.toNat_lt
    have hc := c.toNat_lt
    intro d hd
    simp only [digits, List.mem_cons] at hd
    rcases hd with rfl | rfl | rfl | rfl | hd
    · omega
    · omega
    · omega
    · omega
    · exact ih d hd

/-- The bytes, read off the digits. -/
def bytesOf : List ℕ → List ℕ
  | p :: q :: r :: s :: rest =>
      (p * 4 + q / 16) :: (q % 16 * 16 + r / 4) :: (r % 4 * 64 + s) :: bytesOf rest
  | [p, q, r] => [p * 4 + q / 16, q % 16 * 16 + r / 4]
  | [p, q] => [p * 4 + q / 16]
  | _ => []

theorem bytesOf_digits (bytes : List UInt8) : bytesOf (digits bytes) = bytes.map UInt8.toNat := by
  induction bytes using digits.induct with
  | case1 => rfl
  | case2 a =>
    have ha : a.toNat / 4 * 4 + a.toNat % 4 * 16 / 16 = a.toNat := by omega
    show [_] = [_]
    rw [ha]
  | case3 a b =>
    have hb := b.toNat_lt
    have ha : a.toNat / 4 * 4 + (a.toNat % 4 * 16 + b.toNat / 16) / 16 = a.toNat := by omega
    have hb : (a.toNat % 4 * 16 + b.toNat / 16) % 16 * 16 + b.toNat % 16 * 4 / 4 = b.toNat := by omega
    show [_, _] = [_, _]
    rw [ha, hb]
  | case4 a b c rest ih =>
    have hb := b.toNat_lt
    have hc := c.toNat_lt
    have ha : a.toNat / 4 * 4 + (a.toNat % 4 * 16 + b.toNat / 16) / 16 = a.toNat := by omega
    have hb : (a.toNat % 4 * 16 + b.toNat / 16) % 16 * 16 + (b.toNat % 16 * 4 + c.toNat / 64) / 4
      = b.toNat := by omega
    have hc : (b.toNat % 16 * 4 + c.toNat / 64) % 4 * 64 + c.toNat % 64 = c.toNat := by omega
    show _ :: _ :: _ :: bytesOf (digits rest) = _ :: _ :: _ :: rest.map UInt8.toNat
    rw [ha, hb, hc, ih]

theorem digits_injective {xs ys : List UInt8} (h : digits xs = digits ys) : xs = ys := by
  have hbytes : xs.map UInt8.toNat = ys.map UInt8.toNat := by
    rw [← bytesOf_digits, h, bytesOf_digits]
  exact List.map_injective_iff.mpr (fun _ _ => UInt8.toNat_inj.mp) hbytes

/-- The digit of a letter. -/
def digit (c : Char) : ℕ :=
  let n := c.toNat
  if 97 ≤ n then n - 97 + 26 else if n = 95 then 63 else if 65 ≤ n then n - 65
    else if 48 ≤ n then n - 48 + 52 else 62

theorem digit_letter {d : ℕ} (hd : d < 64) : digit (letter d) = d := by
  have hall : ∀ d : Fin 64, digit (letter d) = d := by decide
  exact hall ⟨d, hd⟩

theorem letter_injOn {c d : ℕ} (hc : c < 64) (hd : d < 64) (h : letter c = letter d) : c = d := by
  rw [← digit_letter hc, h, digit_letter hd]

theorem letter_ne_slash {d : ℕ} (hd : d < 64) : letter d ≠ '/' := by
  have hall : ∀ d : Fin 64, letter d ≠ '/' := by decide
  exact hall ⟨d, hd⟩

theorem map_letter_injective {xs ys : List ℕ} (hxs : ∀ d ∈ xs, d < 64) (hys : ∀ d ∈ ys, d < 64)
    (h : xs.map letter = ys.map letter) : xs = ys := by
  induction xs generalizing ys with
  | nil => exact (List.map_eq_nil_iff.mp h.symm).symm
  | cons x xs ih =>
    cases ys with
    | nil => cases h
    | cons y ys =>
      rw [List.map_cons, List.map_cons, List.cons.injEq] at h
      rw [List.forall_mem_cons] at hxs hys
      rw [letter_injOn hxs.1 hys.1 h.1, ih hxs.2 hys.2 h.2]

theorem encode_injective {xs ys : List UInt8} (h : encode xs = encode ys) : xs = ys :=
  digits_injective (map_letter_injective (digits_lt xs) (digits_lt ys) h)

/-- The alphabet has no slash. -/
theorem slash_not_mem_encode (bytes : List UInt8) : '/' ∉ encode bytes := by
  intro hmem
  obtain ⟨d, hd, heq⟩ := List.mem_map.mp hmem
  exact letter_ne_slash (digits_lt bytes d hd) heq

end Base64

/-!
# Bytes as characters

A text arrives as bytes and is read as UTF-8. A byte that starts no well-formed group stands for one
replacement character and reading goes on at the next byte, so every list of bytes is a text.
-/

namespace Samo

/-- The bytes of a text, as they were read. -/
abbrev Bytes := List UInt8

namespace Text

/-- What a byte outside every well-formed group is read as. -/
def replacement : Char := '�'

/--
What the first byte of a group says: how many bytes follow it, the bits it holds itself, and the
bounds on the byte after it. The bounds leave out overlong forms, surrogates and numbers above the
last code point.
-/
structure Lead where
  following : Nat
  bits : Nat
  low : UInt8
  high : UInt8

/-- Reads the first byte of a group. -/
def lead? (a : UInt8) : Option Lead :=
  if a < 0x80 then some ⟨0, a.toNat, 0x80, 0xBF⟩
  else if a < 0xC2 then none
  else if a < 0xE0 then some ⟨1, a.toNat % 32, 0x80, 0xBF⟩
  else if a < 0xF0 then
    some ⟨2, a.toNat % 16, if a = 0xE0 then 0xA0 else 0x80, if a = 0xED then 0x9F else 0xBF⟩
  else if a < 0xF5 then
    some ⟨3, a.toNat % 8, if a = 0xF0 then 0x90 else 0x80, if a = 0xF4 then 0x8F else 0xBF⟩
  else none

/-- Reads the bytes after the first, six bits each; only the next one has bounds of its own. -/
def following? : Nat → UInt8 → UInt8 → Nat → Bytes → Option (Nat × Bytes)
  | 0, _, _, code, rest => some (code, rest)
  | _ + 1, _, _, _, [] => none
  | n + 1, low, high, code, b :: rest =>
    if low ≤ b && b ≤ high then following? n 0x80 0xBF (code * 64 + b.toNat % 64) rest else none

/-- The group of bytes that starts with `a`: its character and what follows the group. -/
def group? (a : UInt8) (rest : Bytes) : Option (Char × Bytes) := do
  let lead ← lead? a
  let (code, rest) ← following? lead.following lead.low lead.high lead.bits rest
  some (Char.ofNat code, rest)

theorem length_following? {n : Nat} {low high : UInt8} {code code' : Nat} {bs rest : Bytes}
    (found : following? n low high code bs = some (code', rest)) : rest.length ≤ bs.length := by
  induction n generalizing low high code bs with
  | zero =>
    simp only [following?, Option.some.injEq, Prod.mk.injEq] at found
    simp [found.2]
  | succ n ih =>
    cases bs with
    | nil => simp [following?] at found
    | cons b bs =>
      simp only [following?] at found
      split at found
      · have := ih found; simp; omega
      · simp at found

theorem length_group? {a : UInt8} {c : Char} {bs rest : Bytes}
    (found : group? a bs = some (c, rest)) : rest.length ≤ bs.length := by
  simp only [group?, Option.bind_eq_bind, Option.bind_eq_some_iff, Option.some.injEq,
    Prod.mk.injEq] at found
  obtain ⟨_, _, ⟨_, _⟩, inner, _, rfl⟩ := found
  exact length_following? inner

/-- The characters that bytes stand for. -/
def decode : Bytes → List Char
  | [] => []
  | a :: bs =>
    match _found : group? a bs with
    | some (c, rest) => c :: decode rest
    | none => replacement :: decode bs
termination_by bs => bs.length
decreasing_by
  · have := length_group? _found; simp; omega
  · simp

/-- The bytes of a string. -/
def encode (s : String) : Bytes := s.toUTF8.toList

/-- The string that bytes stand for. -/
def ofBytes (bs : Bytes) : String := String.ofList (decode bs)

end Text

end Samo

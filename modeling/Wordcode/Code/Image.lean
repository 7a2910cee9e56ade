import Wordcode.Code.Word
import Wordcode.Fault

/-! Program images: words written as pairs of bytes, the lower byte first. `load`
refuses an odd number of bytes before it looks at the size. -/

namespace Wordcode.Image

def wordOfBytes (lo hi : UInt8) : Word :=
  lo.toUInt16 ||| (hi.toUInt16 <<< 8)

def bytesOfWord (w : Word) : List UInt8 :=
  [w.toUInt8, (w >>> 8).toUInt8]

/-- Pairs up bytes; a last byte without a partner is left out. -/
def pair : List UInt8 → List Word
  | lo :: hi :: rest => wordOfBytes lo hi :: pair rest
  | _ => []

def load (bytes : List UInt8) : Except Fault (List Word) :=
  if bytes.length % 2 ≠ 0 then
    .error (.oddLength bytes.length)
  else if memorySize < bytes.length / 2 then
    .error (.exceedsMemory (bytes.length / 2))
  else
    .ok (pair bytes)

def save (words : List Word) : List UInt8 :=
  words.flatMap bytesOfWord

theorem length_save (words : List Word) : (save words).length = 2 * words.length := by
  induction words with
  | nil => rfl
  | cons w rest ih =>
    simp only [save, List.flatMap_cons, List.length_append, List.length_cons] at ih ⊢
    rw [ih]
    simp [bytesOfWord]
    omega

end Wordcode.Image

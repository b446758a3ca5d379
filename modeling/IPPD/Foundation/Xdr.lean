import IPPD.Foundation.CInt

/-!
# External data representation

An `int` is encoded in four bytes, the most significant one first.  A decoder
reads its value from the front and leaves the rest.
-/

namespace IPPD
namespace Foundation
namespace Xdr

abbrev Byte := BitVec 8

def encodeInt (v : CInt) : List Byte :=
  [v.extractLsb' 24 8, v.extractLsb' 16 8, v.extractLsb' 8 8,
    v.extractLsb' 0 8]

def decodeInt : List Byte -> Option (CInt × List Byte)
  | b3 :: b2 :: b1 :: b0 :: rest => some (b3 ++ b2 ++ b1 ++ b0, rest)
  | _ => none

example : encodeInt 258 = [0, 0, 1, 2] := by decide

theorem decodeInt_encodeInt (v : CInt) (rest : List Byte) :
    decodeInt (encodeInt v ++ rest) = some (v, rest) := by
  have hbytes : v.extractLsb' 24 8 ++ v.extractLsb' 16 8 ++
      v.extractLsb' 8 8 ++ v.extractLsb' 0 8 = v := by
    rw [BitVec.extractLsb'_append_extractLsb'_eq_extractLsb' (by rfl),
      BitVec.extractLsb'_append_extractLsb'_eq_extractLsb' (by rfl),
      BitVec.extractLsb'_append_extractLsb'_eq_extractLsb' (by rfl)]
    exact BitVec.extractLsb'_eq_self
  show some (_, rest) = _
  rw [hbytes]

theorem length_of_decodeInt {bytes rest : List Byte} {v : CInt}
    (h : decodeInt bytes = some (v, rest)) :
    bytes.length = rest.length + 4 := by
  unfold decodeInt at h
  split at h
  · cases h
    rfl
  · cases h

theorem decodeInt_eq_none {bytes : List Byte} (h : bytes.length < 4) :
    decodeInt bytes = none := by
  cases hdecode : decodeInt bytes with
  | none => rfl
  | some r =>
      have hlength := length_of_decodeInt hdecode
      lia

end Xdr
end Foundation
end IPPD

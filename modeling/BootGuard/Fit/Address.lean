/-
  Flash addresses.

  An image lies right below 4 GiB. An address in that window names a place in the image; a
  smaller number is taken as an offset into the image.
-/
import BootGuard.Error

namespace BootGuard.Fit

/-- Four gibibytes, where every image ends. -/
def fourGiB : Int := 0x100000000

/-- The address of an offset into an image. -/
def addressOf (offset imageSize : Int) : Int := fourGiB - imageSize + offset

/-- The offset into an image that an address names. -/
def offsetOf (address imageSize : Int) : Except Error Int :=
  let base := fourGiB - imageSize
  let offset := if base ≤ address then address - base else address
  if imageSize ≤ offset then .error (.offsetOutOfRange (.address address imageSize))
  else .ok offset

theorem offsetOf_addressOf {offset imageSize : Int} (h0 : 0 ≤ offset) (h : offset < imageSize) :
    offsetOf (addressOf offset imageSize) imageSize = .ok offset := by
  have h1 : fourGiB - imageSize ≤ addressOf offset imageSize := by
    simp only [addressOf]
    omega
  have h2 : addressOf offset imageSize - (fourGiB - imageSize) = offset := by
    simp only [addressOf]
    omega
  have h3 : ¬ imageSize ≤ offset := by omega
  simp only [offsetOf, h1, if_true, h2, h3, if_false]

end BootGuard.Fit

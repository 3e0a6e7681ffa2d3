/-
  The types of entries in a firmware interface table.
-/
import BootGuard.Text.Numeral

namespace BootGuard.Fit

abbrev typeHeader : Int := 0x00
abbrev typeMicrocode : Int := 0x01
abbrev typeStartupAcm : Int := 0x02
abbrev typeBiosStartup : Int := 0x07
abbrev typeTpmPolicy : Int := 0x08
abbrev typeBiosPolicy : Int := 0x09
abbrev typeTxtPolicy : Int := 0x0A
abbrev typeKeyManifest : Int := 0x0B
abbrev typeBootPolicy : Int := 0x0C
abbrev typeUnused : Int := 0x7F

/-- The named types, in ascending order. -/
def typeNames : List (Int × String) :=
  [(typeHeader, "FIT header"), (typeMicrocode, "microcode"), (typeStartupAcm, "startup ACM"),
   (typeBiosStartup, "BIOS startup module"), (typeTpmPolicy, "TPM policy"),
   (typeBiosPolicy, "BIOS policy"), (typeTxtPolicy, "TXT policy"),
   (typeKeyManifest, "Key Manifest"), (typeBootPolicy, "Boot Policy Manifest"),
   (typeUnused, "unused")]

/-- The name of a type; a number without a name is written in hexadecimal. -/
def typeName (t : Int) : String := (typeNames.lookup t).getD (Text.hexText t)

end BootGuard.Fit

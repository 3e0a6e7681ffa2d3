/-
  Setting options one after the other.

  An option that is null is left out. What the others set is reported, one by one; that a value
  cannot be reported comes out when it has been set.
-/
import BootGuard.Json
import BootGuard.Update

namespace BootGuard

/-- Reports the value of an option that has been set. The report states integers in decimal. -/
def Json.report (value : Json) : Except Error Unit :=
  if value.isWritable then .ok () else .error (.badValue .numeral)

/-- Makes the changes of some options one after the other, where `on` carries a change over to
the state that holds what is changed. -/
def overrideEach {α σ : Type} (change : String → Json → Except Error (Update α Unit))
    (on : Update α Unit → Update σ Unit) : List (String × Json) → Update σ Unit
  | [] => pure ()
  | (_, .null) :: rest => overrideEach change on rest
  | (name, value) :: rest => do
    let u ← Update.ofExcept (change name value)
    on u
    Update.ofExcept value.report
    overrideEach change on rest

end BootGuard

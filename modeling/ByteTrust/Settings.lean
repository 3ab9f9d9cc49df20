import ByteTrust.Toml.Read

/-!
# Settings of an analysis

Everything defaults to the careful choice: several threads, checks are emitted, and every kind of
write is tried.

In TOML, unknown keys are ignored. The settings for dead stores are a table, or an array of their
values in order. A date or time counts as a table without known keys.
-/

namespace ByteTrust

/-- Which writes the search for dead stores tries. -/
structure DeadStoreSettings where
  enabled : Bool := true
  /-- Also try the copies. -/
  copies : Bool := true
  /-- Also try whole allocations. -/
  allocations : Bool := true
deriving DecidableEq, Repr, Inhabited

/-- The settings of an analysis. -/
structure Settings where
  /-- There is never a second thread. -/
  singleThreaded : Bool := false
  /-- No run-time check will be emitted. -/
  omitChecks : Bool := false
  deadStores : DeadStoreSettings := {}
deriving DecidableEq, Repr, Inhabited

/-! ## From TOML -/

open Toml

/-- A truth value, or the default when there is none. -/
def Settings.flag (default : Bool) : Option Node → Option Bool
  | none => some default
  | some (.bool b) => some b
  | some _ => none

/-- The settings for dead stores from their values. -/
def DeadStoreSettings.ofNodes? (enabled copies allocations : Option Node) :
    Option DeadStoreSettings := do
  return {
    enabled := ← Settings.flag true enabled
    copies := ← Settings.flag true copies
    allocations := ← Settings.flag true allocations }

/-- The settings for dead stores from a value. -/
def DeadStoreSettings.ofNode? : Option Node → Option DeadStoreSettings
  | none => some {}
  | some (.table _ es) =>
    let es : Entries := es
    ofNodes? (es.get? "enabled") (es.get? "copies") (es.get? "allocations")
  | some (.array vs) => ofNodes? vs[0]? vs[1]? vs[2]?
  | some (.moment _) => some {}
  | some _ => none

/-- The settings in a TOML document. -/
def Settings.ofToml? (text : String) : Option Settings := do
  let es ← Toml.parse? text
  return {
    singleThreaded := ← Settings.flag false (es.get? "single_threaded")
    omitChecks := ← Settings.flag false (es.get? "omit_checks")
    deadStores := ← DeadStoreSettings.ofNode? (es.get? "dead_stores") }

end ByteTrust

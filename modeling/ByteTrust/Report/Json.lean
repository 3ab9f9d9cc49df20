import ByteTrust.Json.Decode
import ByteTrust.Program.Encode
import ByteTrust.Report

/-!
# Reports and settings as JSON

Fields are written in a fixed order, sets and maps ascending.
-/

namespace ByteTrust

open Json Json.Decode

/-! ## Writing -/

/-- The name of a need. -/
def Need.name : Need → String
  | .never => "never_check"
  | .safe => "no_check"
  | .must => "must_check"

/-- A need as JSON. -/
def Need.json (n : Need) : Json := .str n.name

/-- A verdict as JSON. -/
def DeadStore.Verdict.json : DeadStore.Verdict → Json
  | .dead => .str "dead"
  | .live => .str "live"

/-- Counts of checks as JSON. -/
def CheckCount.json (c : CheckCount) : Json :=
  .obj [("here", .ofNat c.here), ("total", .ofNat c.total)]

/-- A promotion as JSON. -/
def promotionJson (e : ObjectId × InstId) : Json := .arr [e.1.json, e.2.json]

/-- A report as JSON. -/
def Report.json (r : Report) : Json :=
  .obj [("requirements", Ident.jsonMap Need.json r.needs.entries),
    ("runtime_checks", Ident.jsonList r.runtimeChecks.toList),
    ("check_counts", Ident.jsonMap CheckCount.json r.checkCounts.entries),
    ("tentative_contexts", Ident.jsonList r.tentative.toList),
    ("neutralized", Ident.jsonList r.silenced.toList),
    ("promotions", .ofList promotionJson r.promotions),
    ("dead_stores", Ident.jsonMap DeadStore.Verdict.json r.deadStores.entries),
    ("shared_skips", Ident.jsonList r.sharedCalls)]

/-- Settings as JSON. -/
def Settings.json (s : Settings) : Json :=
  .obj [("single_threaded", .bool s.singleThreaded), ("omit_checks", .bool s.omitChecks),
    ("dead_stores", .obj [("enabled", .bool s.deadStores.enabled),
      ("copies", .bool s.deadStores.copies),
      ("allocations", .bool s.deadStores.allocations)])]

/-! ## Reading -/

/-- Read a need. -/
def Need.read : Reader Need :=
  oneOf [("never_check", .never), ("no_check", .safe), ("must_check", .must)]

/-- Read a verdict. -/
def DeadStore.Verdict.read : Reader DeadStore.Verdict := oneOf [("dead", .dead), ("live", .live)]

/-- Read counts of checks. -/
def CheckCount.read : Reader CheckCount :=
  record ["here", "total"] fun d slots =>
    match slots with
    | [here, total] => do return ⟨← here.required size d, ← total.required size d⟩
    | _ => none

/-- Read a report. No field may be left out. -/
def Report.read : Reader Report :=
  record ["requirements", "runtime_checks", "check_counts", "tentative_contexts", "neutralized",
      "promotions", "dead_stores", "shared_skips"] fun d slots =>
    match slots with
    | [needs, checks, counts, tentative, silenced, promotions, deadStores, sharedCalls] => do
      return {
        needs := ← needs.required (identMap Need.read) d
        runtimeChecks := ← checks.required identSet d
        checkCounts := ← counts.required (identMap CheckCount.read) d
        tentative := ← tentative.required identSet d
        silenced := ← silenced.required identSet d
        promotions := ← promotions.required (list (pair ident ident)) d
        deadStores := ← deadStores.required (identMap DeadStore.Verdict.read) d
        sharedCalls := ← sharedCalls.required (list ident) d }
    | _ => none

/-- Read which writes are tried. -/
def DeadStoreSettings.read : Reader DeadStoreSettings :=
  record ["enabled", "copies", "allocations"] fun d slots =>
    match slots with
    | [enabled, copies, allocations] => do
      return {
        enabled := ← enabled.withDefault bool true d
        copies := ← copies.withDefault bool true d
        allocations := ← allocations.withDefault bool true d }
    | _ => none

/-- Read settings. -/
def Settings.read : Reader Settings :=
  record ["single_threaded", "omit_checks", "dead_stores"] fun d slots =>
    match slots with
    | [singleThreaded, omitChecks, deadStores] => do
      return {
        singleThreaded := ← singleThreaded.withDefault bool false d
        omitChecks := ← omitChecks.withDefault bool false d
        deadStores := ← deadStores.withDefault DeadStoreSettings.read {} d }
    | _ => none

end ByteTrust

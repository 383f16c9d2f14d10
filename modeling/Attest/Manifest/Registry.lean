import Attest.Manifest.Lint

namespace Attest

structure Registry where
  reports : KeyMap Lint.Report

namespace Registry

def empty : Registry := ⟨.empty⟩

def key? (r : Lint.Report) : Option Digest := if r.valid then r.hash else none

/-- Takes in a report, in place of an earlier one with the same hash. -/
def register (registry : Registry) (r : Lint.Report) : Option Digest × Registry :=
  match key? r with
  | some hash => (some hash, ⟨registry.reports.insert hash.hex r⟩)
  | none => (none, registry)

def get? (registry : Registry) (id : String) : Option Lint.Report := registry.reports.get? id

def ids (registry : Registry) : List String := registry.reports.keys

def size (registry : Registry) : Nat := registry.reports.size

def isEmpty (registry : Registry) : Bool := registry.reports.isEmpty

end Registry
end Attest

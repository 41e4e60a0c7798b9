import SchemaCodec.Conversion.Basic
import SchemaCodec.OrderedSet

namespace SchemaCodec

/-! The context of a file: what its conversions have reported and required so far. -/

structure Context where
  tracker : Tracker
  imports : OrderedSet
  helpers : OrderedSet
  exports : OrderedSet

namespace Context

def fresh (file : String) : Context :=
  ⟨.fresh file, ∅, ∅, ∅⟩

def absorb (context : Context) (events : List Event) : Context :=
  let requirements := events.filterMap Event.requirement?
  { tracker := context.tracker.reportAll (events.filterMap Event.report?)
    imports := context.imports.addAll (requirements.filterMap Requirement.importText?)
    helpers := context.helpers.addAll (requirements.filterMap Requirement.helperText?)
    exports := context.exports.addAll (requirements.filterMap Requirement.exportText?) }

end Context

end SchemaCodec

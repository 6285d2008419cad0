import ScriptGraph.Json.Record
import ScriptGraph.Settings

namespace ScriptGraph

/-- Every setting may be left out, and settings that are unknown are disregarded. -/
def Spacing.ofJson? (strict : Bool) (v : Json) : Option Spacing := do
  let shape : Json.Shape :=
    { fields := [["start_x"], ["start_y"], ["vertical_spacing"], ["indent_offset"]], strict }
  let base : Spacing := {}
  match ← shape.fields? v with
  | [x, y, vertical, indent] =>
    return {
      startX := ← Json.optional base.startX Json.float? x
      startY := ← Json.optional base.startY Json.float? y
      vertical := ← Json.optional base.vertical Json.float? vertical
      indent := ← Json.optional base.indent Json.float? indent }
  | _ => none

/-- The header of scripts without one; null means none. -/
def RenderSettings.headerOfJson? : Json → Option (Option String)
  | .null => some none
  | .string s => some (some s)
  | _ => none

def RenderSettings.ofJson? (strict : Bool) (v : Json) : Option RenderSettings := do
  let shape : Json.Shape :=
    { fields := [["indent"], ["max_depth"], ["balance_closers"], ["default_header"]], strict }
  let base : RenderSettings := {}
  match ← shape.fields? v with
  | [indent, maxDepth, balance, header] =>
    return {
      indent := ← Json.optional base.indent Json.string? indent
      maxDepth := ← Json.optional base.maxDepth Json.nat? maxDepth
      balanceClosers := ← Json.optional base.balanceClosers Json.bool? balance
      defaultHeader := ← Json.optional base.defaultHeader headerOfJson? header }
  | _ => none

def ReadSettings.ofJson? (strict : Bool) (v : Json) : Option ReadSettings := do
  let shape : Json.Shape := { fields := [["recover"], ["max_recovery_steps"]], strict }
  let base : ReadSettings := {}
  match ← shape.fields? v with
  | [recover, steps] =>
    return {
      recover := ← Json.optional base.recover Json.bool? recover
      maxRecoverySteps := ← Json.optional base.maxRecoverySteps Json.nat? steps }
  | _ => none

def Settings.ofJson? (strict : Bool) (v : Json) : Option Settings := do
  match ← Json.Shape.fields? { fields := [["layout"], ["generator"], ["parser"]], strict } v with
  | [layout, generator, parser] =>
    return {
      layout := ← Json.optional {} (Spacing.ofJson? strict) layout
      generator := ← Json.optional {} (RenderSettings.ofJson? strict) generator
      parser := ← Json.optional {} (ReadSettings.ofJson? strict) parser }
  | _ => none

end ScriptGraph

namespace ScriptGraph

/-- How an argument is kept in a node: as the content of a string literal, as the text of one
expression, or as the text of all expressions that are left. -/
inductive FieldStyle where
  | quoted | raw | rest
  deriving DecidableEq, Repr

/-- An argument that is kept in a field. An optional one may be absent; any other is written with its
default if the node has no value for it. -/
structure FieldSpec where
  name : String
  style : FieldStyle
  default : String := ""
  optional : Bool := false
  deriving DecidableEq, Repr

/-- An argument of a call: a field, or a function whose body becomes the node's children. -/
inductive Arg where
  | field (spec : FieldSpec)
  | handler (params : String) (optional : Bool)
  deriving DecidableEq, Repr

/-- A call the editor knows. It is written with its first callee, and `fixed` holds the data that tell
entries of one kind apart. A root call starts an action at the top of a script. -/
structure Entry where
  kind : String
  title : String
  callee : String
  aliases : List String := []
  args : List Arg := []
  fixed : List (String × String) := []
  root : Bool := false
  deriving DecidableEq, Repr

namespace Arg

def quoted (name default : String) : Arg := field { name, style := .quoted, default }

def quotedOpt (name : String) : Arg := field { name, style := .quoted, optional := true }

def raw (name default : String) : Arg := field { name, style := .raw, default }

def rawOpt (name : String) : Arg := field { name, style := .raw, optional := true }

def rest (name : String) : Arg := field { name, style := .rest, optional := true }

def spec? : Arg → Option FieldSpec
  | field spec => some spec
  | handler .. => none

end Arg

namespace Entry

def callees (e : Entry) : List String := e.callee :: e.aliases

def fields (e : Entry) : List FieldSpec := e.args.filterMap Arg.spec?

end Entry

namespace Catalogue

open Arg

def registrations : List Entry := [
  { kind := "event-start", title := "Register Command", callee := "RegisterCommand", root := true
    args := [quoted "commandName" "mycommand", handler "source, args" false, rawOpt "restricted"] },
  { kind := "register-net", title := "Register Net Event", callee := "RegisterNetEvent", root := true
    args := [quoted "eventName" "myevent", handler "..." true] },
  { kind := "add-event-handler", title := "Event Handler", callee := "AddEventHandler", root := true
    args := [quoted "eventName" "myevent", handler "..." false] },
  { kind := "thread-create", title := "Create Thread", callee := "CreateThread", root := true
    aliases := ["Citizen.CreateThread"], args := [handler "" false] },
  { kind := "qb-command", title := "QBCore Command", callee := "QBCore.Commands.Add", root := true
    args := [quoted "commandName" "mycommand", quoted "help" "Command help",
      raw "arguments" "\x7b\x7d", raw "argsRequired" "false", handler "source, args" false,
      rawOpt "permission"] },
  { kind := "qb-create-callback", title := "Create Callback", root := true
    callee := "QBCore.Functions.CreateCallback"
    args := [quoted "callbackName" "mycallback", handler "source, cb" false] },
  { kind := "register-key-mapping", title := "Key Mapping", callee := "RegisterKeyMapping", root := true
    args := [quoted "commandName" "mycommand", quoted "description" "Key mapping",
      quoted "mapper" "keyboard", quoted "key" "F5"] }]

def flow : List Entry := [
  { kind := "qb-trigger-callback", title := "Trigger Callback"
    callee := "QBCore.Functions.TriggerCallback"
    args := [quoted "callbackName" "mycallback", handler "result" false, rest "arguments"] },
  { kind := "logic-print", title := "Print", callee := "print", args := [quoted "message" "Hello"] },
  { kind := "wait", title := "Wait", callee := "Wait", aliases := ["Citizen.Wait"]
    args := [raw "duration" "0"] },
  { kind := "event-trigger", title := "Trigger Event", callee := "TriggerEvent"
    args := [quoted "eventName" "myevent", rest "arguments"], fixed := [("eventType", "local")] },
  { kind := "event-trigger", title := "Trigger Event", callee := "TriggerServerEvent"
    args := [quoted "eventName" "myevent", rest "arguments"], fixed := [("eventType", "server")] },
  { kind := "event-trigger", title := "Trigger Event", callee := "TriggerClientEvent"
    args := [quoted "eventName" "myevent", rest "arguments"], fixed := [("eventType", "client")] }]

def frameworkUi : List Entry := [
  { kind := "qb-notify", title := "QBCore Notify", callee := "QBCore.Functions.Notify"
    args := [quoted "message" "Notification", quotedOpt "notifyType", rawOpt "length"] },
  { kind := "qb-drawtext-show", title := "Show DrawText", callee := "exports['qb-core']:DrawText"
    aliases := ["exports[\"qb-core\"]:DrawText"]
    args := [quoted "text" "Text", quotedOpt "position"] },
  { kind := "qb-drawtext-hide", title := "Hide DrawText", callee := "exports['qb-core']:HideText"
    aliases := ["exports[\"qb-core\"]:HideText"] },
  { kind := "qb-drawtext-3d", title := "DrawText 3D", callee := "QBCore.Functions.DrawText3D"
    args := [raw "x" "0.0", raw "y" "0.0", raw "z" "0.0", quoted "text" "Text"] },
  { kind := "qb-delete-vehicle", title := "Delete Vehicle", callee := "QBCore.Functions.DeleteVehicle"
    args := [raw "vehicle" "vehicle"] },
  { kind := "esx-notify", title := "ESX Notify", callee := "ESX.ShowNotification"
    args := [quoted "message" "Notification", quotedOpt "notifyType", rawOpt "length"] }]

def textDrawing : List Entry := [
  { kind := "begin-text-command", title := "Begin Text", callee := "BeginTextCommandDisplayText"
    args := [quoted "textType" "STRING"] },
  { kind := "add-text-component", title := "Add Text", callee := "AddTextComponentSubstringPlayerName"
    args := [quoted "text" "Text"] },
  { kind := "end-text-command", title := "End Text", callee := "EndTextCommandDisplayText"
    args := [raw "x" "0.5", raw "y" "0.5"] },
  { kind := "set-text-font", title := "Text Font", callee := "SetTextFont", args := [raw "font" "4"] },
  { kind := "set-text-scale", title := "Text Scale", callee := "SetTextScale"
    args := [raw "scaleX" "0.5", raw "scaleY" "0.5"] },
  { kind := "set-text-colour", title := "Text Colour", callee := "SetTextColour"
    args := [raw "r" "255", raw "g" "255", raw "b" "255", raw "a" "255"] },
  { kind := "draw-rect", title := "Draw Rect", callee := "DrawRect"
    args := [raw "x" "0.5", raw "y" "0.5", raw "width" "0.1", raw "height" "0.1", raw "r" "255",
      raw "g" "255", raw "b" "255", raw "a" "255"] }]

def screenAndTasks : List Entry := [
  { kind := "do-screen-fade-in", title := "Fade In", callee := "DoScreenFadeIn"
    args := [raw "duration" "1000"] },
  { kind := "do-screen-fade-out", title := "Fade Out", callee := "DoScreenFadeOut"
    args := [raw "duration" "1000"] },
  { kind := "clear-ped-tasks", title := "Clear Tasks", callee := "ClearPedTasks"
    args := [raw "ped" "PlayerPedId()"] }]

/-- Every call the editor knows. -/
def entries : List Entry := registrations ++ flow ++ frameworkUi ++ textDrawing ++ screenAndTasks

/-- The entry of a callee, spelled exactly. -/
def lookup? (callee : String) : Option Entry := entries.find? (·.callees.contains callee)

def ofKind (kind : String) : List Entry := entries.filter (·.kind == kind)

/-- The callees that start an action at the top of a script. -/
def rootCallees : List String := (entries.filter (·.root)).flatMap Entry.callees

end Catalogue

end ScriptGraph

import PointsTo.Plugin.Injector
import PointsTo.Plugin.Model

/-!
# Extensions

An extension describes a plugin by data. It is built against the element tables before a run
(`Extension.build`), since signatures must be resolved and handlers registered.
-/

namespace PointsTo

/-- The description of a plugin. -/
inductive Extension where
  /-- Records the events of some kinds. -/
  | recorder (name : String) (kinds : List EventKind)
  /-- Has methods ignored. -/
  | ignore (signatures : List String)
  /-- Models methods: templates for the methods of some signatures. -/
  | model (name : String) (registrations : List (List String × Template))
  /-- Injects statements at events of a kind, in one method or in all. -/
  | inject (kind : EventKind) (method : Option String) (template : Template) (again : Bool)
      (pre : Option (String × Ty))
  /-- Several plugins, one after the other. -/
  | composite (parts : List Extension)
  | idle

/-- What extensions are built with. -/
structure Setup where
  elements : Elements
  journal : List String := []

namespace Extension

/-- The handler that expands a template. -/
def templateHandler (t : Template) : Handler :=
  fun site => Template.expand site.method (some site) [] t

/-- Registers the templates of a model one after the other. -/
def registerAll : Model → List (List String × Template) → Elements →
    Except Error Model × Elements
  | m, [], e => (.ok m, e)
  | m, (signatures, t) :: rest, e =>
    match m.register (templateHandler t) signatures e with
    | (.ok (), m, e) => registerAll m rest e
    | (.error err, _, e) => (.error err, e)

/-- Resolves the method of an injector. Without a signature, or when there is no such method, the
answer is none. -/
def resolveMethod (signature : Option String) (e : Elements) :
    Except Error (Option MethodId) × Elements :=
  match signature with
  | none => (.ok none, e)
  | some s => e.resolve s

/-- The line that tells of a composite plugin. -/
def compositeLine (n : Nat) : String :=
  "composite " ++ Text.decimal n ++ " " ++ if n = 0 then "true" else "false"

mutual

/-- Builds a plugin. -/
def build (s : Setup) : Extension → Except Error Plugin × Setup
  | .recorder name kinds => (.ok (PointsTo.recorder name kinds), s)
  | .ignore signatures => (.ok (ignorer signatures), s)
  | .model name registrations =>
    match registerAll { name } registrations s.elements with
    | (.ok m, e) => (.ok m.reportingPlugin, { s with elements := e })
    | (.error err, e) => (.error err, { s with elements := e })
  | .inject kind signature template again pre =>
    match resolveMethod signature s.elements with
    | (.error err, e) => (.error err, { s with elements := e })
    | (.ok method, e) =>
      -- an injector for a method that does not exist has nothing to do
      if signature.isSome && method.isNone then (.ok Plugin.idle, { s with elements := e })
      else
        (.ok (Injector.plugin { kind, method, template, again, pre }), { s with elements := e })
  | .composite parts =>
    match buildAll s parts with
    | (.error err, s) => (.error err, s)
    | (.ok ps, s) =>
      (.ok (Plugin.sequence ps), { s with journal := s.journal ++ [compositeLine ps.length] })
  | .idle => (.ok Plugin.idle, s)

/-- Builds plugins one after the other. -/
def buildAll (s : Setup) : List Extension → Except Error (List Plugin) × Setup
  | [] => (.ok [], s)
  | x :: xs =>
    match build s x with
    | (.error err, s) => (.error err, s)
    | (.ok p, s) =>
      match buildAll s xs with
      | (.error err, s) => (.error err, s)
      | (.ok ps, s) => (.ok (p :: ps), s)

end

end Extension

end PointsTo

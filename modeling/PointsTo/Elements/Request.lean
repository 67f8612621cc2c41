import PointsTo.Elements.Basic

/-!
# Requests to the element tables

The operations that extend the element tables, as data: `Elements.serve` carries out a `Request` and
gives its answer. A `Script` is a program made of requests; it can look at the tables between them,
and later requests may depend on earlier answers.
-/

namespace PointsTo

/-- An operation on the element tables. -/
inductive Request where
  | type (t : Ty)
  | method (m : MethodId)
  | field (f : FieldId)
  | localVar (m : MethodId) (l : LocalId) (decl : LocalDecl)
  | newVar (m : MethodId) (name : String) (ty : Ty)
  | temp (m : MethodId) (base : String) (ty : Ty)
  | addStmt (m : MethodId) (s : Stmt) (synthetic : Bool)
  | newSite (m : MethodId) (kind : CallKind) (target : MethodId) (receiver : Option VarId)
      (args : List (Option VarId))
  | addCall (m : MethodId) (kind : CallKind) (target : MethodId) (receiver : Option VarId)
      (args : List (Option VarId)) (lhs : Option VarId) (synthetic : Bool)
  | lower (m : MethodId)
  | resolve (signature : String)
  | dispatch (t : Ty) (sub : String)

/-- The answers to a request. -/
def Request.Answer : Request → Type
  | .type _ | .method _ | .field _ => Unit
  | .localVar _ _ _ => Option VarId
  | .newVar _ _ _ | .temp _ _ _ => VarId
  | .addStmt _ _ _ | .addCall _ _ _ _ _ _ _ => StmtId
  | .newSite _ _ _ _ _ => SiteId
  | .lower _ => Except Error Unit
  | .resolve _ => Except Error (Option MethodId)
  | .dispatch _ _ => Option MethodId

/-- Carries out a request. -/
def Elements.serve (e : Elements) : (r : Request) → r.Answer × Elements
  | .type t => ((), e.addType t)
  | .method m => ((), e.addMethod m)
  | .field f => ((), e.addField f)
  | .localVar m l decl => e.localVar m l decl
  | .newVar m name ty => e.newVar m name ty
  | .temp m base ty => e.temp m base ty
  | .addStmt m s synthetic => e.addStmt m s synthetic
  | .newSite m kind target receiver args => e.newSite m kind target receiver args
  | .addCall m kind target receiver args lhs synthetic =>
    e.addCall m kind target receiver args lhs synthetic
  | .lower m => e.lower m
  | .resolve signature => e.resolve signature
  | .dispatch t sub => e.dispatch t sub

/-- A program that works on the element tables. -/
inductive Script (α : Type) where
  | done (a : α)
  /-- Looks at the tables. -/
  | look (k : Elements → Script α)
  /-- Makes a request. -/
  | ask (r : Request) (k : r.Answer → Script α)

namespace Script

/-- One program after the other. -/
def bind {α β : Type} : Script α → (α → Script β) → Script β
  | .done a, f => f a
  | .look k, f => .look fun e => (k e).bind f
  | .ask r k, f => .ask r fun a => (k a).bind f

instance : Monad Script where
  pure := .done
  bind := .bind

/-- The tables. -/
def elements : Script Elements := .look .done

/-- The answer to a request. -/
def request (r : Request) : Script r.Answer := .ask r .done

/-- Runs a program. -/
def run {α : Type} : Script α → Elements → α × Elements
  | .done a, e => (a, e)
  | .look k, e => (k e).run e
  | .ask r k, e => (k (e.serve r).1).run (e.serve r).2

theorem run_bind {α β : Type} (x : Script α) (f : α → Script β) (e : Elements) :
    (x.bind f).run e = (f (x.run e).1).run (x.run e).2 := by
  induction x generalizing e with
  | done a => rfl
  | look k ih => exact ih _ e
  | ask r k ih => exact ih _ _

end Script

end PointsTo

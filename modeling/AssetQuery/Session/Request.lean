import AssetQuery.Config
import AssetQuery.Registry
import AssetQuery.Session.Basic

/-!
# Requests to a session

Resources are created from arguments and known by name and id from then on. The fields of a resource
are computed when they are first read, from an argument, as a child resource or by its provider, and
kept. A field that is read while it is being computed depends on itself, which is an error.

The scripts of factories and providers make requests of their own. How deep these may nest is
limited; a request that goes deeper has no outcome.
-/

namespace AssetQuery

variable {σ α : Type}

/-- What a session works with. -/
structure Setting (σ : Type) where
  registry : Registry (Factory σ)
  asset : Asset
  config : Config
  /-- How deep requests may nest below one that is made. -/
  nesting : Nat := 3999

/-- Work on a session. It has no outcome if requests nest too deep. -/
abbrev Work (σ α : Type) := StateT (Session σ) Option α

/-- How requests that scripts make are answered. -/
structure Calls (σ : Type) where
  read : Key → String → Work σ (Except ResourceError Data)
  create : String → Dict Data → Work σ (Except ResourceError Key)

namespace Setting

/-- Runs a command, if that may be done. -/
def runCommand (s : Setting σ) (command : String) : Work σ (Except ResourceError CommandOutput) :=
  match s.asset.require .runCommand with
  | .error e => return .error e
  | .ok () => do
    modify (·.record (.ran command))
    return .ok (s.asset.output command)

/-- Has the next read of a field compute it anew. -/
def invalidate (_ : Setting σ) (key : Key) (field : String) : Work σ Unit :=
  modify fun session =>
    (session.update key (·.invalidate field)).record (.invalidated key field)

end Setting

/-- The outcome of a script. -/
def Script.perform (s : Setting σ) (calls : Calls σ) : Script σ α → Work σ (Except Failure α)
  | done a => return .ok a
  | fail cause => return .error cause
  | load next => do (next (← get).memory).perform s calls
  | save memory next => do
    modify fun session => { session with memory }
    next.perform s calls
  | look next => (next s.asset).perform s calls
  | run command next => do (next (← s.runCommand command)).perform s calls
  | read key field next => do (next (← calls.read key field)).perform s calls
  | create name args next => do (next (← calls.create name args)).perform s calls
  | invalidate key field next => do
    s.invalidate key field
    next.perform s calls

/-- Reading a field whose value is known. -/
def fieldResult (key : Key) (field : String) (data : Data) : Except ResourceError Data :=
  match data.error with
  | some cause => .error (.fieldComputation key.name field cause)
  | none => .ok data

/-- The first thing that is wrong with the arguments of a resource. -/
def argsFault? (info : ResourceInfo) (args : Dict Data) : Option String :=
  match info.fields.entries.find? fun e => e.2.isMandatory && !args.contains e.1 with
  | some (name, _) => some s!"missing required argument '{name}'"
  | none => (args.keys.find? fun name => !info.fields.contains name).map fun name =>
      s!"unknown argument '{name}'"

namespace Setting

/-- The value that a field has on its own: the argument of its name, the child resource that it
leads to, or what the provider computes. -/
def compute (s : Setting σ) (calls : Calls σ) (key : Key) (inst : Instance σ) (name : String)
    (declared : Field) : Work σ (Except Failure Data) :=
  match inst.args.find? name with
  | some data =>
    return .ok <| if !data.value.isNil && data.typ.containsAny then
      { data with typ := declared.typ } else data
  | none =>
    if declared.isImplicit then do
      let child := declared.typ.resourceName?.getD (key.name ++ "." ++ name)
      match ← calls.create child .empty with
      | .ok key => return .ok (.resource key.name key.id)
      | .error e => return .error (.resource e)
    else
      match inst.provider with
      | none =>
        return .error (.text s!"resource '{key.name}' has no provider for field '{name}'")
      | some provider => do
        match ← (provider.compute key inst.args name).perform s calls with
        | .ok data =>
          return .ok <| if data.value.isNil && data.error.isNone then
            { data with typ := declared.typ } else data
        | .error cause => return .error cause

/-- The data that stands for an outcome of computing a field of type `t`, or the circle that the
field depends on itself by. -/
def settled (t : Ty) : Except Failure Data → Except ResourceError Data
  | .ok data => .ok <| if data.value.isNil && data.typ = .nil then { data with typ := t } else data
  | .error cause =>
    match cause.circle? with
    | some e => .error e
    | none => .ok (.failed t cause.message)

/-- Computes a field that is not known, and keeps the outcome. A field that depends on itself has
none to be kept. -/
def computeField (s : Setting σ) (calls : Calls σ) (key : Key) (inst : Instance σ) (name : String)
    (declared : Field) : Work σ (Except ResourceError Data) := do
  modify (·.update key (·.begin name))
  let outcome ← s.compute calls key inst name declared
  modify (·.update key (·.finish name))
  match settled declared.typ outcome with
  | .error e =>
    modify (·.record (.computed key name none))
    return .error e
  | .ok data =>
    modify (·.record (.computed key name (some data)))
    if data.error.isNone || s.config.cacheErrors then modify (·.update key (·.keep name data))
    return fieldResult key name data

/-- Reads a field. -/
def readStep (s : Setting σ) (calls : Calls σ) (key : Key) (name : String) :
    Work σ (Except ResourceError Data) := do
  match (← get).instance? key with
  | none => return .error (.unknownResource key.name)
  | some inst =>
    match inst.known? name with
    | some data => do
      let reply := fieldResult key name data
      modify (·.record (.answered key name reply))
      return reply
    | none =>
      if inst.computing.contains name then return .error (.cyclic key.name name)
      else
        match s.registry.field? key.name name with
        | none => return .error (.unknownField key.name name)
        | some declared => s.computeField calls key inst name declared

/-- The arguments and the provider that the factory of a resource makes of what is passed. -/
def construct (s : Setting σ) (calls : Calls σ) (factory : Option (Factory σ)) (args : Dict Data) :
    Work σ (Except Failure (Dict Data × Option (Provider σ))) :=
  match factory with
  | none => return .ok (args, none)
  | some factory => (factory args).perform s calls

/-- Creates a resource, or finds the one that is there already. -/
def createStep (s : Setting σ) (calls : Calls σ) (name : String) (args : Dict Data) :
    Work σ (Except ResourceError Key) :=
  match s.registry.resource? name with
  | none => return .error (.unknownResource name)
  | some entry => do
    match ← s.construct calls entry.factory args with
    | .error cause => return .error (.construction name cause.message)
    | .ok (args, provider) =>
      match argsFault? entry.info args with
      | some cause => return .error (.construction name cause)
      | none =>
        let key := ⟨name, (provider.bind (·.id args)).getD (defaultId name args)⟩
        modify (·.adopt key (.fresh args provider))
        return .ok key

/-- How requests are answered below which others may nest to some depth. -/
def calls (s : Setting σ) : (depth : Nat) → Calls σ
  | 0 => ⟨fun _ _ => failure, fun _ _ => failure⟩
  | depth + 1 => ⟨fun key name => s.readStep (s.calls depth) key name,
      fun name args => s.createStep (s.calls depth) name args⟩

/-- Reads a field of a resource. -/
def read (s : Setting σ) (key : Key) (name : String) : Work σ (Except ResourceError Data) :=
  (s.calls (s.nesting + 1)).read key name

/-- Creates a resource, or finds the one that is there already. -/
def create (s : Setting σ) (name : String) (args : Dict Data) : Work σ (Except ResourceError Key) :=
  (s.calls (s.nesting + 1)).create name args

end Setting

end AssetQuery

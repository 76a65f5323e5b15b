import AssetQuery.Registry
import AssetQuery.Schema.Basic
import AssetQuery.Session.Script

/-!
# The core resources

What can be asked of every asset: commands run on it, files on it, and its platform.

A command is run when the first of its fields is read. What it printed is kept for the others in a
slot of the provider, and every time that a command is created a provider with a slot of its own is
made, also if the resource is there already and that provider is of no use. The fields of the
platform are arguments that its factory fills in. Files are looked at whenever a field of theirs is
computed.
-/

namespace AssetQuery.Core

def mandatory (name : String) (typ : Ty) : Field :=
  { Field.plain name typ with isMandatory := true }

def commandInfo : ResourceInfo :=
  { ResourceInfo.plain "command" with
    title := some "Run a command on the asset"
    fields := .ofList <| [mandatory "command" .string, .plain "stdout" .string,
      .plain "stderr" .string, .plain "exitcode" .int].map fun f => (f.name, f) }

def fileInfo : ResourceInfo :=
  { ResourceInfo.plain "file" with
    title := some "A file on the asset"
    fields := .ofList <| [mandatory "path" .string, .plain "content" .string,
      .plain "exists" .bool].map fun f => (f.name, f) }

/-- The fields of the platform that are texts. -/
def platformTexts : List String := ["name", "title", "arch", "release", "kind", "runtime"]

def platformInfo : ResourceInfo :=
  { ResourceInfo.plain "platform" with
    title := some "The platform of the scanned asset"
    rewritesArgs := true
    fields := .ofList <| (("family", .plain "family" (.array .string)) ::
      platformTexts.map fun name => (name, .plain name .string)) }

def schema : Schema :=
  ⟨.ofList <| [commandInfo, fileInfo, platformInfo].map fun info => (info.id, info)⟩

/-- The slots of the providers of commands, by the numbers that they were given in turn. A slot is
filled with the output of the command once that was run. -/
structure Slots where
  outputs : List (Option CommandOutput)

namespace Slots

def empty : Slots := ⟨[]⟩

/-- The number of the slot that is added next. -/
def next (slots : Slots) : Nat := slots.outputs.length

def add (slots : Slots) : Slots := ⟨slots.outputs ++ [none]⟩

def output? (slots : Slots) (slot : Nat) : Option CommandOutput := slots.outputs[slot]?.join

def fill (slots : Slots) (slot : Nat) (output : CommandOutput) : Slots :=
  ⟨slots.outputs.set slot (some output)⟩

variable (slots : Slots) (slot : Nat)

@[simp] theorem next_add : slots.add.next = slots.next + 1 := by simp [add, next]

@[simp] theorem next_fill (output : CommandOutput) :
    (slots.fill slot output).next = slots.next := by
  simp [fill, next]

theorem output?_next : slots.output? slots.next = none := by simp [output?, next]

@[simp] theorem output?_add : slots.add.output? slot = slots.output? slot := by
  rw [add, output?, output?, List.getElem?_append]
  split
  · rfl
  · next h =>
    rw [List.getElem?_eq_none (Nat.le_of_not_lt h), List.getElem?_singleton]
    split <;> rfl

theorem output?_fill {slots : Slots} {slot : Nat} (h : slot < slots.next) (output : CommandOutput)
    (other : Nat) : (slots.fill slot output).output? other =
      if other = slot then some output else slots.output? other := by
  rw [fill, output?, output?, List.getElem?_set]
  by_cases hother : slot = other
  · subst hother
    have hlength : slot < slots.outputs.length := h
    simp [hlength]
  · rw [if_neg hother, if_neg (Ne.symm hother)]

end Slots

/-- The memory of the core resources, beside that of others. -/
structure Memory (τ : Type) where
  slots : Slots
  rest : τ

variable {τ : Type}

/-- The text that an argument is. -/
def text? (args : Dict Data) (name : String) : Option String :=
  match args.find? name with
  | some ⟨.string s, _, _⟩ => some s
  | _ => none

/-- What a command printed, which is run if the slot of its provider is not filled yet. -/
def output (slot : Nat) (args : Dict Data) : Script (Memory τ) CommandOutput :=
  .load fun memory =>
    match memory.slots.output? slot with
    | some output => return output
    | none => do
      let command ← .orFail "command must be a string" (text? args "command")
      let output ← .command command
      .save { memory with slots := memory.slots.fill slot output } (.done output)

def commandField (slot : Nat) (args : Dict Data) (field : String) : Script (Memory τ) Data := do
  let output ← output slot args
  match field with
  | "stdout" => return .string output.stdout
  | "stderr" => return .string output.stderr
  | "exitcode" => return .int (Int64.ofInt output.exitStatus.toInt)
  | _ => .fail (.text s!"command has no field '{field}'")

def commandProvider (slot : Nat) : Provider (Memory τ) :=
  ⟨fun args => text? args "command", fun _ => commandField slot⟩

def commandFactory : Factory (Memory τ) := fun args =>
  .load fun memory =>
    .save { memory with slots := memory.slots.add }
      (.done (args, some (commandProvider memory.slots.next)))

def fileField (_ : Key) (args : Dict Data) (field : String) : Script (Memory τ) Data := do
  let path ← .orFail "path must be a string" (text? args "path")
  let found ← .hasFile path
  match field with
  | "exists" => return .bool found
  | "content" => return .string (← .contentOf path)
  | _ => .fail (.text s!"file has no field '{field}'")

def fileProvider : Provider (Memory τ) := ⟨fun args => text? args "path", fileField⟩

def platformProvider : Provider (Memory τ) :=
  ⟨fun _ => some "platform",
    fun _ _ field => .fail (.text s!"platform field '{field}' was not initialized")⟩

/-- The arguments of the platform, over those that are passed. -/
def platformArgs (p : Platform) (args : Dict Data) : Dict Data :=
  [("name", Data.string p.name), ("title", .string p.title), ("arch", .string p.arch),
    ("release", .string p.release), ("kind", .string p.kind), ("runtime", .string p.runtime),
    ("family", .of (.array (p.family.map .string)) (.array .string))].foldl
      (fun args (name, data) => args.insert name data) args

def platformFactory : Factory (Memory τ) := fun args =>
  .look fun asset => .done (platformArgs asset.platform args, some platformProvider)

/-- The factories of the core resources by name. -/
def factories : List (String × Factory (Memory τ)) :=
  [("platform", platformFactory),
    ("command", commandFactory),
    ("file", fun args => .done (args, some fileProvider))]

/-- The registry of the core resources. -/
def registry : Registry (Factory (Memory τ)) :=
  factories.foldl (fun r (name, factory) => (r.addFactory name factory).toOption.getD r)
    (Registry.empty.loadSchema schema).1

end AssetQuery.Core

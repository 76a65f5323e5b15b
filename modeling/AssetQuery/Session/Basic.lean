import AssetQuery.Session.Script
import AssetQuery.Value.Text

/-!
# Sessions

What is known of an asset at some time: the resources created so far, each with the fields computed
so far, and a journal of what was done. A resource that is there stays as it is; what changes is
what is known of its fields.
-/

namespace AssetQuery

/-- What was computed for a field. It does not count once it is no longer valid. -/
structure CacheEntry where
  valid : Bool
  data : Data

/-- A created resource. -/
structure Instance (σ : Type) where
  args : Dict Data
  provider : Option (Provider σ)
  cache : Dict CacheEntry
  /-- The fields that are being computed. -/
  computing : List String

/-- Something that was done. -/
inductive Event where
  | ran (command : String)
  /-- A field was computed, unless it turned out to depend on itself. -/
  | computed (key : Key) (field : String) (outcome : Option Data)
  /-- A field was read whose value was known. -/
  | answered (key : Key) (field : String) (reply : Except ResourceError Data)
  | invalidated (key : Key) (field : String)

/-- What is known of an asset, and the memory that scripts share. -/
structure Session (σ : Type) where
  instances : List (Key × Instance σ)
  memory : σ
  /-- What was done, the latest first. -/
  journal : List Event

namespace Instance

variable {σ : Type}

/-- A resource of which no field is known. -/
def fresh (args : Dict Data) (provider : Option (Provider σ)) : Instance σ :=
  ⟨args, provider, .empty, []⟩

/-- What is known of a field. -/
def known? (inst : Instance σ) (field : String) : Option Data :=
  match inst.cache.find? field with
  | some ⟨true, data⟩ => some data
  | _ => none

def begin (inst : Instance σ) (field : String) : Instance σ :=
  { inst with computing := field :: inst.computing }

def finish (inst : Instance σ) (field : String) : Instance σ :=
  { inst with computing := inst.computing.filter (· ≠ field) }

def keep (inst : Instance σ) (field : String) (data : Data) : Instance σ :=
  { inst with cache := inst.cache.insert field ⟨true, data⟩ }

/-- Marks what is known of a field as out of date. -/
def invalidate (inst : Instance σ) (field : String) : Instance σ :=
  match inst.cache.find? field with
  | some entry => { inst with cache := inst.cache.insert field { entry with valid := false } }
  | none => inst

theorem known?_keep (inst : Instance σ) (field : String) (data : Data) (f : String) :
    (inst.keep field data).known? f = if f = field then some data else inst.known? f := by
  by_cases h : f = field <;> simp [known?, keep, Dict.find?_insert, h]

theorem known?_invalidate (inst : Instance σ) (field f : String) :
    (inst.invalidate field).known? f = if f = field then none else inst.known? f := by
  simp only [invalidate]
  split
  · by_cases h : f = field <;> simp [known?, Dict.find?_insert, h]
  · next hnone => by_cases h : f = field <;> simp [known?, h, hnone]

end Instance

namespace Session

variable {σ : Type}

/-- A session in which nothing was done. -/
def new (memory : σ) : Session σ := ⟨[], memory, []⟩

def instance? (s : Session σ) (key : Key) : Option (Instance σ) := s.instances.lookup key

/-- Adds a resource, unless there is one with its key. -/
def adopt (s : Session σ) (key : Key) (inst : Instance σ) : Session σ :=
  if (s.instance? key).isSome then s else { s with instances := s.instances ++ [(key, inst)] }

/-- Changes what is known of a resource. -/
def update (s : Session σ) (key : Key) (f : Instance σ → Instance σ) : Session σ :=
  { s with instances := s.instances.map fun e => if e.1 = key then (e.1, f e.2) else e }

def record (s : Session σ) (event : Event) : Session σ := { s with journal := event :: s.journal }

theorem instance?_update (s : Session σ) (key : Key) (f : Instance σ → Instance σ) (k : Key) :
    (s.update key f).instance? k = if k = key then (s.instance? k).map f else s.instance? k := by
  simp only [update, instance?]
  induction s.instances with
  | nil => simp
  | cons entry rest ih =>
    obtain ⟨first, inst⟩ := entry
    simp only [List.map_cons]
    by_cases hk : k = first
    · subst hk
      by_cases hkey : k = key <;> simp [hkey]
    · have hne : (k == first) = false := beq_false_of_ne hk
      split <;> simp only [List.lookup_cons, hne, ih]

theorem instance?_adopt (s : Session σ) (key : Key) (inst : Instance σ) (k : Key) :
    (s.adopt key inst).instance? k = (s.instance? k).or (if k = key then some inst else none) := by
  simp only [adopt]
  split
  · next h =>
    by_cases hk : k = key
    · subst hk
      obtain ⟨old, hold⟩ := Option.isSome_iff_exists.mp h
      simp [hold]
    · simp [hk]
  · simp only [instance?, List.lookup_append]
    by_cases hk : k = key
    · simp [hk]
    · simp [List.lookup_cons, beq_false_of_ne hk, hk]

@[simp] theorem instance?_record (s : Session σ) (event : Event) (key : Key) :
    (s.record event).instance? key = s.instance? key := rfl

/-- The commands that were run, in order. -/
def commands (s : Session σ) : List String :=
  (s.journal.filterMap fun
    | .ran command => some command
    | _ => none).reverse

end Session

/-- The id of a resource whose provider gives it none: its name and its arguments. -/
def defaultId (name : String) (args : Dict Data) : String :=
  if args.entries.isEmpty then name
  else
    let parts := args.entries.map fun e => e.1 ++ "=" ++ e.2.value.text
    name ++ "(" ++ ",".intercalate parts ++ ")"

end AssetQuery

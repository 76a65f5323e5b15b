import AssetQuery.Proofs.Session.Places
import AssetQuery.Proofs.Value.Text

/-!
# Ids made of arguments

The id of a resource that is made of its name and its arguments tells the arguments, if the fields
they are given for, and their types, tell what the texts of the values leave open. A resource stands
in an id as it is; so the text of one may look like an argument and the next.
-/

namespace AssetQuery

/-- How the argument for a field starts after others. -/
def mark (field : String) : List Char := ',' :: (field.toList ++ ['='])

/-- Whether a text looks nowhere as if the argument for one of the fields started. -/
def Unmarked (fields : List String) (text : List Char) : Prop :=
  ∀ field ∈ fields, ¬mark field <:+: text

instance (fields : List String) (text : List Char) : Decidable (Unmarked fields text) :=
  inferInstanceAs (Decidable (∀ field ∈ fields, ¬mark field <:+: text))

/-- Whether a text ends, or goes on with the argument for one of the fields. -/
def Ends (fields : List String) (text : List Char) : Prop :=
  text = [] ∨ ∃ field ∈ fields, mark field <+: text

section Unmarked

variable {fields : List String} {text rest rest' : List Char}

theorem Ends.head? (h : Ends fields rest) : ∀ c ∈ rest.head?, c = ',' := by
  rcases h with rfl | ⟨field, -, more, rfl⟩
  · simp
  · rintro _ ⟨⟩
    rfl

private theorem Ends.parted (h : Ends fields rest) : Json.Parted rest := fun c hc => by
  rw [h.head? c hc]
  rfl

private theorem Unmarked.eq_nil (hfields : ∀ field ∈ fields, ',' ∉ field.toList) {more : List Char}
    (h : Unmarked fields more) (hends : Ends fields (more ++ rest)) (hrest : Ends fields rest) :
    more = [] := by
  cases more with
  | nil => rfl
  | cons c more =>
    obtain ⟨field, hfield, hmark⟩ := hends.resolve_left (by simp)
    refine absurd ?_ (h field hfield)
    rcases List.prefix_or_prefix_of_prefix hmark (List.prefix_append _ rest) with
      hprefix | ⟨left, hleft⟩
    · exact hprefix.isInfix
    · rw [← hleft] at hmark ⊢
      have hleftrest : left <+: rest := (List.prefix_append_right_inj _).mp hmark
      cases left with
      | nil => rw [List.append_nil]
      | cons next left =>
        -- a comma would stand within the name of the field
        obtain ⟨after, rfl⟩ := hleftrest
        obtain rfl : next = ',' := hrest.head? next rfl
        have hcomma : ',' ∈ field.toList ++ ['='] := by
          rw [← (List.cons.inj hleft).2]
          exact List.mem_append_right _ List.mem_cons_self
        rcases List.mem_append.mp hcomma with hcomma | hcomma
        · exact absurd hcomma (hfields field hfield)
        · exact absurd hcomma (by decide)

private theorem told_unmarked (hfields : ∀ field ∈ fields, ',' ∉ field.toList)
    (h : Unmarked fields text) : Told id (Unmarked fields) (Ends fields) text := by
  intro text' rest rest' h' hrest hrest' heq
  simp only [id] at heq
  rcases List.append_eq_append_iff.mp heq with ⟨more, rfl, rfl⟩ | ⟨more, rfl, rfl⟩
  · obtain rfl : more = [] := by
      refine Unmarked.eq_nil hfields (fun field hfield hmark => ?_) hrest hrest'
      exact h' field hfield (hmark.trans (List.suffix_append text more).isInfix)
    simp
  · obtain rfl : more = [] := by
      refine Unmarked.eq_nil hfields (fun field hfield hmark => ?_) hrest' hrest
      exact h field hfield (hmark.trans (List.suffix_append text' more).isInfix)
    simp

end Unmarked

namespace Value

/-- Whether a resource that is given as an argument is told from the arguments after it and, where
any resource may be given, its name from its id. -/
def Apart (fields : List String) (t : Ty) : Value → Prop
  | resource name id =>
    Unmarked fields (resource name id).text.toList ∧ (t = .resourceLike → ' ' ∉ name.toList)
  | _ => True

structure Telling (fields : List String) (t : Ty) (v : Value) : Prop where
  conforms : v.Conforms t
  legible : v.Legible t
  apart : v.Apart fields t

variable {fields : List String} {t : Ty} {v v' : Value} {name name' id id' : String}

theorem toList_text_resource (name id : String) :
    (resource name id).text.toList = name.toList ++ ' ' :: ("id = ".toList ++ id.toList) := by
  simp [text]

private theorem text_of_not_resource (h : ∀ name id, v ≠ resource name id) :
    v.text.toList = v.toJson.compactChars := by
  cases v with
  | nil =>
    rw [text, toJson, Json.compactChars]
  | resource name id => exact absurd rfl (h name id)
  | _ =>
    rw [text]
    · rw [Json.compact, String.toList_ofList]
    all_goals simp

theorem Telling.eq_nil_or_resource (h : v.Telling fields t) (ht : t.isResource) :
    v = .nil ∨ ∃ name id, v = .resource name id := by
  cases h.conforms with
  | nil => exact .inl rfl
  | resource => exact .inr ⟨_, _, rfl⟩
  | resourceLike => exact .inr ⟨_, _, rfl⟩
  | _ => cases ht

private theorem Telling.resource_eq (h : (resource name id).Telling fields t)
    (h' : (resource name' id').Telling fields t)
    (heq : (resource name id).text = (resource name' id').text) :
    resource name id = resource name' id' := by
  have htext := congrArg String.toList heq
  rw [toList_text_resource, toList_text_resource] at htext
  have hsame : name.toList = name'.toList ∧
      ' ' :: ("id = ".toList ++ id.toList) = ' ' :: ("id = ".toList ++ id'.toList) := by
    cases h.conforms with
    | any => cases h.legible with | resource ht => cases ht
    | resource =>
      cases h'.conforms with
      | resource => exact ⟨rfl, List.append_cancel_left htext⟩
    | resourceLike =>
      have hblank {name id : String} (h : (resource name id).Telling fields .resourceLike) :
          ∀ c ∈ name.toList, (c != ' ') = true := fun c hc =>
        bne_iff_ne.mpr fun hblank => h.apart.2 rfl (hblank ▸ hc)
      exact told_of_forall (hblank h) _ _ _ (hblank h') (by simp) (by simp) htext
  obtain ⟨hname, hid⟩ := hsame
  have hid := List.append_cancel_left (List.cons.inj hid).2
  rw [String.toList_inj.mp hname, String.toList_inj.mp hid]

private theorem Telling.unmarked (h : v.Telling fields t) (ht : t.isResource) :
    Unmarked fields v.text.toList := by
  rcases h.eq_nil_or_resource ht with rfl | ⟨name, id, rfl⟩
  · intro field _ hmark
    have hcomma : ',' ∈ "null".toList := hmark.subset List.mem_cons_self
    exact absurd hcomma (by decide)
  · exact h.apart.1

private theorem Telling.text_injective (h : v.Telling fields t) (h' : v'.Telling fields t)
    (ht : t.isResource) (heq : v.text = v'.text) : v = v' := by
  have hnil (name id : String) : (resource name id).text ≠ Value.nil.text := by
    intro heq
    have hblank : ' ' ∈ (Value.nil.text).toList := by
      rw [← heq, toList_text_resource]
      exact List.mem_append_right _ List.mem_cons_self
    exact absurd hblank (by decide)
  rcases h.eq_nil_or_resource ht with rfl | ⟨name, id, rfl⟩
  · rcases h'.eq_nil_or_resource ht with rfl | ⟨name', id', rfl⟩
    · rfl
    · exact absurd heq.symm (hnil name' id')
  · rcases h'.eq_nil_or_resource ht with rfl | ⟨name', id', rfl⟩
    · exact absurd heq (hnil name id)
    · exact h.resource_eq h' heq

private theorem told_text (hfields : ∀ field ∈ fields, ',' ∉ field.toList)
    (h : v.Telling fields t) :
    Told (fun v => v.text.toList) (Telling fields t) (Ends fields) v := by
  intro v' rest rest' h' hrest hrest' heq
  by_cases ht : t.isResource
  · obtain ⟨hsame, hafter⟩ := told_unmarked hfields (h.unmarked ht) _ _ _ (h'.unmarked ht)
      hrest hrest' heq
    exact ⟨h.text_injective h' ht (String.toList_inj.mp hsame), hafter⟩
  · have hne {v : Value} (h : v.Telling fields t) (name id : String) : v ≠ resource name id := by
      rintro rfl
      cases h.legible with
      | resource hresource => exact ht hresource
    simp only [text_of_not_resource (hne h), text_of_not_resource (hne h')] at heq
    obtain ⟨hsame, hafter⟩ := (delimited_toJson v).told _ _ _ (delimited_toJson v')
      hrest.parted hrest'.parted heq
    exact ⟨toJson_injective h.conforms h'.conforms h.legible h'.legible hsame, hafter⟩

end Value

section DefaultId

variable {info : ResourceInfo} {args args' : Dict Data}

/-- The values that are given for fields. -/
def given (args : Dict Data) : List (String × Value) := args.entries.map fun e => (e.1, e.2.value)

/-- How an argument is written in an id. -/
def argumentChars (e : String × Value) : List Char := e.1.toList ++ '=' :: e.2.text.toList

private theorem toList_defaultId (name : String) (args : Dict Data) :
    (defaultId name args).toList = name.toList ++
      if given args = [] then []
      else '(' :: ([','].intercalate ((given args).map argumentChars) ++ [')']) := by
  have hparts : (args.entries.map fun e => e.1 ++ "=" ++ e.2.value.text).map String.toList =
      (given args).map argumentChars := by
    simp [given, argumentChars]
  rw [defaultId]
  by_cases hempty : args.entries = []
  · simp [given, hempty]
  · rw [if_neg (by simpa using hempty), if_neg (by simpa [given] using hempty), ← hparts]
    simp [String.toList_intercalate]

/-- Whether a value is given for a declared field, and told where it is. -/
def Fitting (info : ResourceInfo) (e : String × Value) : Prop :=
  ∃ field, info.fields.find? e.1 = some field ∧ e.2.Telling info.fields.keys field.typ

/-- Whether the names of the fields of a resource are told in an id. -/
def PlainNames (info : ResourceInfo) : Prop :=
  ∀ field ∈ info.fields.keys, ',' ∉ field.toList ∧ '=' ∉ field.toList

instance (info : ResourceInfo) : Decidable (PlainNames info) :=
  inferInstanceAs (Decidable (∀ field ∈ info.fields.keys, ',' ∉ field.toList ∧ '=' ∉ field.toList))

theorem Fitting.mem_keys {e : String × Value} (h : Fitting info e) : e.1 ∈ info.fields.keys := by
  obtain ⟨field, hfield, -⟩ := h
  exact List.mem_map_of_mem (f := (·.1)) (Table.mem_of_lookup hfield)

private theorem told_argument (hnames : PlainNames info) {e : String × Value} (h : Fitting info e) :
    Told argumentChars (Fitting info) (Ends info.fields.keys) e := by
  have hkey {e : String × Value} (h : Fitting info e) : ∀ c ∈ e.1.toList, (c != '=') = true :=
    fun c hc => bne_iff_ne.mpr fun heq => (hnames e.1 h.mem_keys).2 (heq ▸ hc)
  intro e' rest rest' h' hrest hrest' heq
  simp only [argumentChars, List.append_assoc, List.cons_append] at heq
  obtain ⟨hname, hvalue⟩ := told_of_forall (hkey h) _ _ _ (hkey h') (by simp) (by simp) heq
  obtain ⟨field, hfield, htelling⟩ := h
  obtain ⟨field', hfield', htelling'⟩ := h'
  rw [← String.toList_inj.mp hname, hfield] at hfield'
  obtain rfl := Option.some.inj hfield'
  obtain ⟨hsame, hafter⟩ := Value.told_text (fun field hfield => (hnames field hfield).1) htelling
    _ _ _ htelling' hrest hrest' (List.cons.inj hvalue).2
  exact ⟨Prod.ext (String.toList_inj.mp hname) hsame, hafter⟩

private theorem defaultId_injective {name : String} (hnames : PlainNames info)
    (h : ∀ e ∈ given args, Fitting info e) (h' : ∀ e ∈ given args', Fitting info e)
    (heq : defaultId name args = defaultId name args') : given args = given args' := by
  have hsep (e : String × Value) (rest : List Char) (he : Fitting info e) :
      Ends info.fields.keys (',' :: (argumentChars e ++ rest)) := by
    refine .inr ⟨e.1, he.mem_keys, e.2.text.toList ++ rest, ?_⟩
    simp [mark, argumentChars]
  have htext := congrArg String.toList heq
  rw [toList_defaultId, toList_defaultId] at htext
  replace htext := List.append_cancel_left htext
  split at htext <;> split at htext
  · next hnil hnil' => exact hnil.trans hnil'.symm
  · cases htext
  · cases htext
  · next hne hne' =>
    obtain ⟨e, es, hes⟩ := List.exists_cons_of_ne_nil hne
    rw [hes] at h htext ⊢
    have hsame := List.append_cancel_right (List.cons.inj htext).2
    exact (told_intercalate hsep (fun e he => ⟨h e he, told_argument hnames (h e he)⟩) _ [] []
      ⟨hne', h'⟩ ⟨.inl rfl, by simp⟩ ⟨.inl rfl, by simp⟩
      (congrArg (· ++ []) hsame)).1

/-- Whether the values that are given for fields are of the declared types. -/
def Typed (info : ResourceInfo) (args : Dict Data) : Prop :=
  ∀ e ∈ given args, ∀ field, info.fields.find? e.1 = some field → e.2.Conforms field.typ

/-- Whether the declared types, and the arguments around, tell what the texts of the values that are
given for fields leave open. -/
def TextsTold (info : ResourceInfo) (args : Dict Data) : Prop :=
  ∀ e ∈ given args, ∀ field, info.fields.find? e.1 = some field →
    e.2.Legible field.typ ∧ e.2.Apart info.fields.keys field.typ

theorem keys_eq_map_given (args : Dict Data) : args.keys = (given args).map (·.1) := by
  rw [given, List.map_map]
  rfl

private theorem lookup_given (args : Dict Data) (field : String) :
    (given args).lookup field = (args.find? field).map (·.value) := by
  rw [given, Dict.find?]
  induction args.entries with
  | nil => rfl
  | cons e es ih =>
    rw [List.map_cons, List.lookup_cons, List.lookup_cons, ih]
    cases field == e.1 <;> rfl

private theorem fitting_of_mem (hdeclared : ∀ field ∈ args.keys, info.fields.contains field)
    (htyped : Typed info args) (htold : TextsTold info args) :
    ∀ e ∈ given args, Fitting info e := by
  intro e he
  obtain ⟨field, hfield⟩ := Option.isSome_iff_exists.mp
    (hdeclared e.1 (keys_eq_map_given args ▸ List.mem_map_of_mem he))
  obtain ⟨hlegible, hapart⟩ := htold e he field hfield
  exact ⟨field, hfield, htyped e he field hfield, hlegible, hapart⟩

end DefaultId

namespace Setting

variable {σ : Type} {s : Setting σ}

/-- The creation of a resource that has no id of its provider's: what counts in place of the
arguments that are passed, and what the resource is known by. -/
structure Establishes (s : Setting σ) (depth : Nat) (entry : ResourceEntry (Factory σ))
    (name : String) (args : Dict Data) (session : Session σ) (made : Dict Data) (key : Key) :
    Prop where
  declared : s.registry.resource? name = some entry
  constructed : ∃ provider mid, s.construct (s.calls depth) entry.factory args session =
    some (.ok (made, provider), mid) ∧ provider.bind (·.id made) = none
  created : ∃ after, (s.calls (depth + 1)).create name args session = some (.ok key, after)

/-- A resource without an id of its provider's has one that is made of its arguments, and those are
for its fields. -/
private theorem Establishes.key_eq {depth : Nat} {entry : ResourceEntry (Factory σ)} {name : String}
    {args made : Dict Data} {session : Session σ} {key : Key}
    (h : s.Establishes depth entry name args session made key) :
    key = ⟨name, defaultId name made⟩ ∧ ∀ field ∈ made.keys, entry.info.fields.contains field := by
  obtain ⟨hdeclared, ⟨provider, mid, hconstruct, hown⟩, after, hcreate⟩ := h
  cases creates_of_createStep hcreate with
  | adopted hentry hmade hfault =>
    obtain rfl := Option.some.inj (hdeclared.symm.trans hentry)
    rw [hconstruct] at hmade
    cases hmade
    refine ⟨?_, (argsFault?_eq_none_iff.mp hfault).1⟩
    rw [idOf, hown]
    rfl

/-- Different arguments give different resources: creations that come to the same one were made of
the same values for the same fields, where these are told by their texts. -/
theorem create_injective {depth depth' : Nat} {entry : ResourceEntry (Factory σ)} {name : String}
    {args args' made made' : Dict Data} {session session' : Session σ} {key : Key}
    (h : s.Establishes depth entry name args session made key)
    (h' : s.Establishes depth' entry name args' session' made' key)
    (htyped : Typed entry.info made) (htyped' : Typed entry.info made')
    (hnames : PlainNames entry.info) (htold : TextsTold entry.info made)
    (htold' : TextsTold entry.info made') :
    made.keys = made'.keys ∧
      ∀ field, (made.find? field).map (·.value) = (made'.find? field).map (·.value) := by
  obtain ⟨hkey, hdeclared⟩ := h.key_eq
  obtain ⟨hkey', hdeclared'⟩ := h'.key_eq
  have hid : defaultId name made = defaultId name made' := congrArg Key.id (hkey.symm.trans hkey')
  have hgiven := defaultId_injective hnames (fitting_of_mem hdeclared htyped htold)
    (fitting_of_mem hdeclared' htyped' htold') hid
  refine ⟨?_, fun field => ?_⟩
  · rw [keys_eq_map_given, keys_eq_map_given, hgiven]
  · rw [← lookup_given, ← lookup_given, hgiven]

/-- A berth knows its ship, since when it has been there, and how long it is. -/
def berthInfo : ResourceInfo :=
  { ResourceInfo.plain "berth" with
    fields := .ofList [("length", .plain "length" .float), ("notes", .plain "notes" .any),
      ("ship", .plain "ship" (.resource "ship")), ("since", .plain "since" .time)] }

/-- A berth is not told who asked for it. -/
def berthFactory : Factory Unit := fun args => .done (args.erase "asker", none)

/-- A link leads from one host to another. -/
def linkInfo : ResourceInfo :=
  { ResourceInfo.plain "link" with
    fields := .ofList [("from", .plain "from" (.resource "host")),
      ("to", .plain "to" (.resource "host"))] }

def harbourSetting : Setting Unit where
  registry := ((Registry.empty.addResource berthInfo).bind fun r =>
    (r.addResource linkInfo).bind (·.addFactory "berth" berthFactory)).toOption.getD .empty
  asset := default
  config := .default

/-- A ship whose id is made of its own arguments came in a leap second. -/
def berthArgs : Dict Data :=
  .ofList [("length", .of (.float ⟨0x4029333333333333⟩) .float),
    ("notes", .of (.array [.string "a,ship=b", .int 3, .nil]) (.array .any)),
    ("ship", .resource "ship" "ship(flag=\"b\",name=\"a\")"),
    ("since", .of (.time ⟨1700000039, 1250000000, by decide, by decide⟩) .time)]

/-- The same values with nothing known of their types. -/
def looseArgs : Dict Data := berthArgs.map fun _ data => .of data.value .any

def berthKey : Key := ⟨"berth", defaultId "berth" berthArgs⟩

theorem create_injective_berthArgs :
    harbourSetting.Establishes 0 ⟨berthInfo, some berthFactory⟩ "berth"
      (berthArgs.insert "asker" (.string "ann")) (.new ()) berthArgs berthKey ∧
    harbourSetting.Establishes 1 ⟨berthInfo, some berthFactory⟩ "berth" looseArgs
      ((Session.new ()).adopt berthKey (.fresh berthArgs none)) looseArgs berthKey ∧
    berthArgs.keys = looseArgs.keys ∧
    ∀ field, (berthArgs.find? field).map (·.value) = (looseArgs.find? field).map (·.value) := by
  have hfirst : harbourSetting.Establishes 0 ⟨berthInfo, some berthFactory⟩ "berth"
      (berthArgs.insert "asker" (.string "ann")) (.new ()) berthArgs berthKey :=
    ⟨rfl, ⟨none, _, rfl, rfl⟩, _, rfl⟩
  have hsecond : harbourSetting.Establishes 1 ⟨berthInfo, some berthFactory⟩ "berth" looseArgs
      ((Session.new ()).adopt berthKey (.fresh berthArgs none)) looseArgs berthKey :=
    ⟨rfl, ⟨none, _, rfl, rfl⟩, _, rfl⟩
  have htyped : Typed berthInfo berthArgs := by
    refine List.forall_mem_cons.mpr ⟨?length, List.forall_mem_cons.mpr ⟨?notes,
      List.forall_mem_cons.mpr ⟨?ship, List.forall_mem_singleton.mpr ?since⟩⟩⟩
    case length => rintro _ ⟨⟩; exact .float
    case notes => rintro _ ⟨⟩; exact .any
    case ship => rintro _ ⟨⟩; exact .resource
    case since => rintro _ ⟨⟩; exact .time
  have htold : TextsTold berthInfo berthArgs := by
    refine List.forall_mem_cons.mpr ⟨?length, List.forall_mem_cons.mpr ⟨?notes,
      List.forall_mem_cons.mpr ⟨?ship, List.forall_mem_singleton.mpr ?since⟩⟩⟩
    case length => rintro _ ⟨⟩; exact ⟨.float (by decide), trivial⟩
    case notes =>
      rintro _ ⟨⟩
      refine ⟨.array ?_, trivial⟩
      exact List.forall_mem_cons.mpr
        ⟨.string, List.forall_mem_cons.mpr ⟨.int, List.forall_mem_singleton.mpr .nil⟩⟩
    case ship => rintro _ ⟨⟩; exact ⟨.resource rfl, by decide, by simp⟩
    case since => rintro _ ⟨⟩; exact ⟨.time (by decide), trivial⟩
  -- what is given for the fields is the same
  have htyped' : Typed berthInfo looseArgs := htyped
  have htold' : TextsTold berthInfo looseArgs := htold
  exact ⟨hfirst, hsecond,
    create_injective hfirst hsecond htyped htyped' (by decide) htold htold'⟩

/-- A link from a host whose id looks like the end of an argument and another argument. -/
def disguisedArgs : Dict Data := .ofList [("from", .resource "host" "x,to=host id = y")]

def linkArgs : Dict Data :=
  .ofList [("from", .resource "host" "x"), ("to", .resource "host" "y")]

/-- A resource is not quoted in an id. -/
theorem create_disguisedArgs :
    ∃ key, harbourSetting.Establishes 0 ⟨linkInfo, none⟩ "link" disguisedArgs (.new ())
        disguisedArgs key ∧
      harbourSetting.Establishes 0 ⟨linkInfo, none⟩ "link" linkArgs (.new ()) linkArgs key ∧
      Typed linkInfo disguisedArgs ∧ Typed linkInfo linkArgs ∧
      disguisedArgs.keys ≠ linkArgs.keys := by
  have hid : defaultId "link" disguisedArgs = defaultId "link" linkArgs := by decide
  refine ⟨⟨"link", defaultId "link" linkArgs⟩, ⟨rfl, ⟨none, _, rfl, rfl⟩, ?_⟩,
    ⟨rfl, ⟨none, _, rfl, rfl⟩, _, rfl⟩, ?_, ?_, by decide⟩
  · rw [← hid]
    exact ⟨_, rfl⟩
  · refine List.forall_mem_singleton.mpr ?_
    rintro _ ⟨⟩
    exact .resource
  · refine List.forall_mem_cons.mpr ⟨?_, List.forall_mem_singleton.mpr ?_⟩ <;>
    · rintro _ ⟨⟩
      exact .resource

end Setting

end AssetQuery

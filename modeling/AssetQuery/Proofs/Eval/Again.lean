import AssetQuery.Proofs.Compile.Bare
import AssetQuery.Proofs.Eval.Accord
import AssetQuery.Proofs.Session.Recall

/-!
# Executing again

An execution leaves nothing to be computed for one that follows: that makes the same requests in the
same order and is answered from what is known, with the same failures at the same places. So it
comes to the same answers, and all that it does is to read.
-/

namespace AssetQuery

variable {σ : Type} {s : Setting σ} {memory : σ}

/-- Where no field turned out to depend on itself on the way, work may be done on the sessions that
recall where it ends, of which then nothing changes. -/
def recalling (s : Setting σ) (memory : σ) : Accord σ where
  Kept := s.Reaches memory
  Leads := Session.Grows
  Total := False
  May before after later := after.circles = before.circles ∧ later.Recalls s after
  Ends _ _ later last := later.Answers last
  refl := .refl
  trans := .trans
  has h hkey := h.has hkey
  there h hmay hkey := hmay.2.has (h.has hkey)
  stay _ := .refl _
  first h h' hmay := ⟨(h.circles_eq h' hmay.1).1, hmay.2.of_grows h'⟩
  rest h h' hmay hends := ⟨(h.circles_eq h' hmay.1).2, hmay.2.of_answers hends⟩
  both hends hends' := hends.trans hends'

private theorem recalling_others {α : Type} {w : Work σ α} {reply : α} {before after : Session σ}
    (h : after.circles = before.circles → Work.Recalls s w reply after) (later : Session σ)
    (hmay : (recalling s memory).May before after later) :
    ∃ last, w later = some (reply, last) ∧ (recalling s memory).Ends before after later last := by
  obtain ⟨events, hevents, hagain⟩ := h hmay.1 later hmay.2
  exact ⟨_, hagain, events, hevents, rfl⟩

namespace Setting

variable {code : Code} {props : Dict Data}

section Executions

variable (hcached : s.config.cacheErrors = true) (hpure : s.PureFactories)
  (hhands : s.HandsOutAttached memory)

include hcached hpure hhands

private theorem recalling_serves : (recalling s memory).Serves s where
  create name args session hsession hargs := by
    refine ⟨False.elim, fun reply after hrun => ?_⟩
    obtain ⟨_, hgrows, hreply⟩ := createStep_advances hpure _ name hargs
      (hsession.rests hpure hhands).attached _ _ hrun
    exact ⟨hsession.create hargs hrun, hgrows, hreply,
      recalling_others fun _ => createStep_recalls hpure hrun⟩
  read key field session hsession hkey := by
    have hcalls := calls_attach hpure hhands s.nesting
    have hrests := hsession.rests hpure hhands
    refine ⟨False.elim, fun reply after hrun => ?_⟩
    obtain ⟨_, hgrows, hreply⟩ := readStep_advances hhands hcalls (.inl hsession) hrests.attached
      _ _ hrun
    exact ⟨hsession.read hrun, hgrows, hreply, recalling_others
      (readStep_recalls hcached hhands hcalls (.inl hsession) hrests hkey hrun)⟩

/-- The execution of a code that holds no resources adds to what is known, and comes to the same
again. -/
private theorem execute_recalls {may : Code → Prop} (hbare : Code.Bare may) (hcode : may code)
    {session after : Session σ} {answers : List (Ref × Answer)}
    (hsession : s.Reaches memory session) (hprops : props.Refers session.Has)
    (hrun : s.execute code props session = some (answers, after)) :
    s.Reaches memory after ∧ session.Grows after ∧ (after.circles = session.circles →
      Work.Recalls s (s.execute code props) answers after) := by
  obtain ⟨hreaches, hgrows, _, hothers⟩ := ((recalling_serves hcached hpure hhands).execute hbare
    hcode hsession hprops).2 _ _ hrun
  refine ⟨hreaches, hgrows, fun hcircles later hlater => ?_⟩
  obtain ⟨_, hagain, events, hevents, rfl⟩ := hothers later ⟨hcircles, hlater⟩
  exact ⟨events, hevents, hagain⟩

end Executions

section Queries

variable (hcached : s.config.cacheErrors = true) (hpure : s.PureFactories)
  (hhands : s.HandsOutAttached memory) {session after : Session σ} {digest : Digest}
  {query : List Expr} (hsession : s.Reaches memory session)
  (hcompile : Vocabulary.compile ⟨s.registry, .standard⟩ digest query = .ok code)
  (hprops : props.Refers session.Has) {answers : List (Ref × Answer)}
  (hrun : s.execute code props session = some (answers, after))

include hcached hpure hhands hsession hcompile hprops hrun

/-- A compiled query in whose execution no field turned out to depend on itself is answered the same
when it is executed again: all that is done then is to read fields that are known. -/
theorem execute_again (hcircles : after.circles = session.circles) :
    ∃ events, (∀ e ∈ events, e.isAnswer) ∧
      s.execute code props after = some (answers, after.log events) := by
  obtain ⟨hreaches, _, hagain⟩ := execute_recalls hcached hpure hhands Code.bare_unladen
    (Vocabulary.unladen_of_compile hcompile) hsession hprops hrun
  exact hagain hcircles after (hreaches.rests hpure hhands).recalls

end Queries

def ticketInfo : ResourceInfo :=
  { ResourceInfo.plain "ticket" with
    fields := .ofList [("seat", .plain "seat" .string), ("number", .plain "number" .int),
      ("next", .plain "next" (.resource "ticket")), ("row", .plain "row" .int)] }

def nextTicket (reply : Except ResourceError Key) : Script Int64 Data :=
  match reply with
  | .ok key => .done (.resource key.name key.id)
  | .error e => .fail (.resource e)

/-- Tickets are numbered in the order in which their numbers are asked for. -/
def ticketProvider : Provider Int64 where
  id _ := none
  compute _ _ field :=
    if field = "number" then .load fun count => .save (count + 1) (.done (.int count))
    else if field = "next" then
      .create "ticket" (Dict.empty.insert "seat" (.string "B")) nextTicket
    else .fail (.text "there are no rows")

def ticketSetting : Setting Int64 where
  registry := ((Registry.empty.addResource ticketInfo).bind
    (·.addFactory "ticket" fun args => .done (args, some ticketProvider))).toOption.getD .empty
  asset := default
  config := .default

theorem factory_ticketSetting {name : String} {entry : ResourceEntry (Factory Int64)}
    {factory : Factory Int64} (hentry : ticketSetting.registry.resource? name = some entry)
    (hfactory : entry.factory = some factory) :
    factory = fun args => .done (args, some ticketProvider) := by
  have hmem : (name, entry) ∈ ticketSetting.registry.entries.entries := Table.mem_of_lookup hentry
  obtain ⟨_, rfl⟩ := Prod.mk.inj (List.mem_singleton.mp hmem)
  exact (Option.some.inj hfactory).symm

theorem pureFactories_ticketSetting : ticketSetting.PureFactories := by
  intro name entry factory hentry hfactory args
  rw [factory_ticketSetting hentry hfactory]
  refine ⟨.ok (args, some ticketProvider), fun _ _ => rfl, ?_⟩
  rintro _ _ ⟨⟩ known hargs
  exact hargs

private theorem eq_ticketProvider {provider : Provider Int64} (h : ticketSetting.Makes provider) :
    provider = ticketProvider := by
  obtain ⟨name, entry, factory, args, made, hentry, hfactory, hrun⟩ := h
  rw [factory_ticketSetting hentry hfactory] at hrun
  cases hrun (ticketSetting.calls 0) (.new 0)
  rfl

/-- The scripts before which computations about tickets come to stand. -/
inductive TicketScript : Script Int64 Data → Session Int64 → Prop
  | load {session : Session Int64} :
      TicketScript (.load fun count => .save (count + 1) (.done (.int count))) session
  | save {session : Session Int64} (count : Int64) :
      TicketScript (.save (count + 1) (.done (.int count))) session
  | number {session : Session Int64} (count : Int64) : TicketScript (.done (.int count)) session
  | create {session : Session Int64} :
      TicketScript (.create "ticket" (Dict.empty.insert "seat" (.string "B")) nextTicket) session
  | next {session : Session Int64} {key : Key} : session.Has key →
      TicketScript (.done (.resource key.name key.id)) session
  | fail {session : Session Int64} (cause : Failure) : TicketScript (.fail cause) session

private theorem ticketScript_of_begins {key : Key} {name : String} {script : Script Int64 Data}
    {session : Session Int64} (h : ticketSetting.Begins key name script session)
    (later : Session Int64) : TicketScript script later := by
  obtain ⟨inst, _, provider, _, _, _, _, _, _, _, hmakes, rfl⟩ := h
  rw [eq_ticketProvider hmakes]
  simp only [ticketProvider]
  split
  · exact .load
  · split
    · exact .create
    · exact .fail _

private theorem ticketScript_of_stands {memory : Int64} {script : Script Int64 Data}
    {session : Session Int64} (h : ticketSetting.Stands memory script session) :
    TicketScript script session := by
  induction h with
  | outside _ hbegins => exact ticketScript_of_begins hbegins _
  | inside _ hbegins => exact ticketScript_of_begins hbegins _
  | load _ ih =>
    cases ih
    exact .save _
  | save _ ih =>
    cases ih
    exact .number _
  | look _ ih => cases ih
  | run _ _ ih => cases ih
  | read _ _ ih => cases ih
  | @create _ _ _ _ _ _ reply _ hrun ih =>
    cases ih
    cases reply with
    | ok key => exact .next (has_of_create pureFactories_ticketSetting hrun)
    | error e => exact .fail _

private theorem handsOutAttached_ticketSetting (memory : Int64) :
    ticketSetting.HandsOutAttached memory where
  done data session h := by
    cases ticketScript_of_stands h with
    | number => exact Value.refers_int
    | next hkey => exact Value.refers_resource_iff.mpr hkey
  create name args next session h := by
    cases ticketScript_of_stands h with
    | create => exact Dict.refers_empty.insert Value.refers_string
  keeps key field next session h := nomatch ticketScript_of_stands h

/-- The numbers of two tickets, of which one leads to the other, and a row, which fails. -/
def ticketQuery : List Expr :=
  let ticket := Expr.root "ticket" [⟨some "seat", .literal (.string "A")⟩]
  [.call ticket "number" [], .call (.call ticket "next" []) "number" [], .call ticket "row" []]

theorem execute_again_ticketQuery :
    ticketSetting.config.cacheErrors = true ∧ ticketSetting.PureFactories ∧
      ticketSetting.HandsOutAttached 0 ∧ ticketSetting.Reaches 0 (.new 0) ∧
      (Dict.empty : Dict Data).Refers (Session.new (0 : Int64)).Has ∧
      ∃ code answers after events,
        Vocabulary.compile ⟨ticketSetting.registry, .standard⟩ sha256Digest ticketQuery = .ok code ∧
        ticketSetting.execute code .empty (.new 0) = some (answers, after) ∧
        after.circles = (Session.new (0 : Int64)).circles ∧
        answers.map (fun e => (e.2.data.bytes, e.2.error)) =
          [(Primitive.int64Bytes 0, none), (Primitive.int64Bytes 1, none),
            ([], some "failed to compute field 'row' of resource 'ticket': there are no rows")] ∧
        (∀ e ∈ events, e.isAnswer) ∧
        ticketSetting.execute code .empty after = some (answers, after.log events) := by
  have hseen : (Vocabulary.compile ⟨ticketSetting.registry, .standard⟩ sha256Digest
      ticketQuery).toOption.bind (fun code =>
        (ticketSetting.execute code .empty (.new 0)).map fun o =>
          (o.2.circles, o.1.map fun e => (e.2.data.bytes, e.2.error))) =
      some (0, [(Primitive.int64Bytes 0, none), (Primitive.int64Bytes 1, none),
        ([], some "failed to compute field 'row' of resource 'ticket': there are no rows")]) := by
    decide +kernel
  obtain ⟨code, hcode, hseen⟩ := Option.bind_eq_some_iff.mp hseen
  obtain ⟨⟨answers, after⟩, hrun, hseen⟩ := Option.map_eq_some_iff.mp hseen
  obtain ⟨hcircles, hanswers⟩ := Prod.mk.inj hseen
  have hcompile := Except.eq_ok_of_toOption hcode
  have hhands := handsOutAttached_ticketSetting 0
  have hprops : (Dict.empty : Dict Data).Refers (Session.new (0 : Int64)).Has := Dict.refers_empty
  obtain ⟨events, hevents, hagain⟩ := execute_again rfl pureFactories_ticketSetting hhands .start
    hcompile hprops hrun hcircles
  exact ⟨rfl, pureFactories_ticketSetting, hhands, .start, hprops, code, answers, after, events,
    hcompile, hrun, hcircles, hanswers, hevents, hagain⟩

end Setting

end AssetQuery

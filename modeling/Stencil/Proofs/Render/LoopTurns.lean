import Stencil.Proofs.Correspondence.Change
import Stencil.Proofs.Quiet
import Stencil.Proofs.Render.KeyedReads
import Stencil.Proofs.Value.PropertyOrder
import Stencil.Render.Environment

/-!
The turns of a loop. A loop goes over the items that its source has when it starts, whatever becomes of the source
meanwhile: they are taken once, before the first turn, and so is what each turn is told about its place.
-/
namespace Stencil

/-- What a computation ended with, where a result counts as another. -/
def mapResult {ε σ α β : Type} (f : α → β) : EStateM.Result ε σ α → EStateM.Result ε σ β
  | .ok a s => .ok (f a) s
  | .error e s => .error e s

theorem bind_pure_eq {ε σ α β : Type} (f : α → β) (x : EStateM ε σ α) (s : σ) :
    (x >>= fun a => pure (f a)) s = mapResult f (x s) := by
  cases hx : x s with
  | ok a t => exact bind_ok hx
  | error e t => exact bind_error hx

theorem mapResult_mapResult {ε σ α β γ : Type} (f : α → β) (g : β → γ) (r : EStateM.Result ε σ α) :
    mapResult g (mapResult f r) = mapResult (g ∘ f) r := by
  cases r <;> rfl

variable {features : Features} {depth : Nat} {scope : ScopeId} {target : Target} {body otherwise : List Stmt}
  {past coming vs : List Value} {item : Value} {s t : Store} {r : EStateM.Result Fault Store Text}

namespace Loop

/-- What a loop tells about an item that comes after some and before others. -/
def facts (past coming : List Value) : List (Text × Value) :=
  [("index", .ofNat (past.length + 1)), ("index0", .ofNat past.length), ("revindex", .ofNat (coming.length + 1)),
    ("revindex0", .ofNat coming.length), ("first", .bool past.isEmpty), ("last", .bool coming.isEmpty),
    ("length", .ofNat (past.length + 1 + coming.length)),
    ("previtem", past.getLast?.getD (.undefined .previousItem)),
    ("nextitem", coming.head?.getD (.undefined .nextItem))]

/-- A mapping tells facts as long as it has the entries that it has now, whatever becomes of all else. -/
def Tells (s : Store) (id : MappingId) (facts : List (Text × Value)) : Prop :=
  ∀ t : Store, t.mapping id = s.mapping id → ∀ fact ∈ facts, Eval.member (.mapping id) fact.1 t = .ok fact.2 t

/-- A turn opens: it has a scope of its own, where `loop` is a new mapping that tells about the item, and nothing that
was there before is changed. -/
structure Opens (scope : ScopeId) (past coming : List Value) (s t : Store) : Prop where
  lists : t.lists = s.lists
  tables : t.tables = s.tables
  macros : t.macros = s.macros
  mappings : ∀ id < s.mappings.size, t.mapping id = s.mapping id
  scopes : ∀ i < s.scopes.size, t.scope i = s.scope i
  inner : t.scope s.scopes.size = ⟨some scope, [("loop", .mapping s.mappings.size)]⟩
  tells : Tells t s.mappings.size (facts past coming)

/-- One turn: the item is assigned, then the body runs. -/
def turn (features : Features) (depth : Nat) (target : Target) (body : List Stmt) (item : Value) (inner : ScopeId) :
    Eval Text := do
  Eval.assign target item inner
  Eval.render features depth inner body

/-- There is one turn for each of the items that are coming, in their order, until one fails. The texts follow each
other. -/
inductive Turns (features : Features) (depth : Nat) (scope : ScopeId) (target : Target) (body : List Stmt) :
    List Value → List Value → Store → EStateM.Result Fault Store Text → Prop where
  | done {past : List Value} {s : Store} : Turns features depth scope target body past [] s (.ok [] s)
  | failed {past coming : List Value} {item : Value} {s t u : Store} {e : Fault} (hopens : Opens scope past coming s t)
    (hturn : turn features depth target body item s.scopes.size t = .error e u) :
    Turns features depth scope target body past (item :: coming) s (.error e u)
  | next {past coming : List Value} {item : Value} {s t u : Store} {text : Text} {r : EStateM.Result Fault Store Text}
    (hopens : Opens scope past coming s t)
    (hturn : turn features depth target body item s.scopes.size t = .ok text u)
    (hrest : Turns features depth scope target body (past ++ [item]) coming u r) :
    Turns features depth scope target body past (item :: coming) s (mapResult (text ++ ·) r)

/-- A loop over certain items: without any, what stands for them runs, else there are turns. -/
def Goes (features : Features) (depth : Nat) (scope : ScopeId) (target : Target) (body otherwise : List Stmt)
    (vs : List Value) (s : Store) (r : EStateM.Result Fault Store Text) : Prop :=
  (vs = [] ∧ r = Eval.render features depth s.scopes.size otherwise (s.newScope (some scope) []).2) ∨
    (vs ≠ [] ∧ Turns features depth scope target body [] vs s r)

/-- The condition of a loop on an item, which is assigned in a scope of its own. -/
def condition (features : Features) (depth : Nat) (scope : ScopeId) (target : Target) (e : Expr) (item : Value) :
    Eval Bool := do
  let inner ← Eval.newScope scope
  Eval.assign target item inner
  Eval.truthy (← Eval.evaluate features depth inner e)

/-- Where the condition of a loop finds the items. A list is read when their turn comes, as far as it went at first. -/
def places (source : Value) (vs : List Value) : List (Store → Option Value) :=
  match source with
  | .list id => (List.range vs.length).map fun i s => (s.list id)[i]?
  | _ => vs.map fun v _ => some v

/-- A condition is tried on the items, one after another, until it fails on one. Those that it holds for are kept. -/
inductive Sifts (keep : Value → Eval Bool) :
    List (Store → Option Value) → Store → EStateM.Result Fault Store (List Value) → Prop where
  | done {s : Store} : Sifts keep [] s (.ok [] s)
  | gone {place : Store → Option Value} {places : List (Store → Option Value)} {s : Store}
    {r : EStateM.Result Fault Store (List Value)} (hplace : place s = none) (hrest : Sifts keep places s r) :
    Sifts keep (place :: places) s r
  | failed {place : Store → Option Value} {places : List (Store → Option Value)} {item : Value} {s t : Store}
    {e : Fault} (hplace : place s = some item) (hkeep : keep item s = .error e t) :
    Sifts keep (place :: places) s (.error e t)
  | tried {place : Store → Option Value} {places : List (Store → Option Value)} {item : Value} {holds : Bool}
    {s t : Store} {r : EStateM.Result Fault Store (List Value)} (hplace : place s = some item)
    (hkeep : keep item s = .ok holds t) (hrest : Sifts keep places t r) :
    Sifts keep (place :: places) s (mapResult (if holds then (item :: ·) else id) r)

/-! ## One turn -/

/-- All that the body of a loop is given with an item. -/
def entries (past coming : List Value) (cycle : Value) : List (Text × Value) :=
  facts past coming ++ [(Text.ofString "cycle", cycle)]

/-- The names of the facts. -/
def names : List Text :=
  ["index", "index0", "revindex", "revindex0", "first", "last", "length", "previtem", "nextitem"]

/-- They can be asked for: no name is hidden, and none is that of a method. -/
theorem tellable : ∀ name ∈ names, Eval.isHidden name = false ∧ KeyedMethod.ofName? name = none := by decide

/-- The properties of the mapping that a turn has as `loop`. -/
def properties (past coming : List Value) (cycle : Value) : Properties :=
  (entries past coming cycle).map fun p => (p.1, .data p.2)

theorem keysInOrder_properties (past coming : List Value) (cycle : Value) :
    KeysInOrder ((properties past coming cycle).map (·.1)) := by
  change KeysInOrder (names ++ [Text.ofString "cycle"])
  exact ⟨by decide, [], _, rfl, .nil, nofun, by decide⟩

/-- The store where a turn has been told about its place. -/
def told (past coming : List Value) (s : Store) : Store :=
  ((s.newNative (.cycle past.length)).2.newMapping
    (properties past coming (.native s.serial (.cycle past.length)))).2

/-- What is told at an index is about what stands before it and behind it. -/
theorem loopContext_eq (past : List Value) (item : Value) (coming : List Value) (s : Store) :
    Eval.loopContext (past ++ item :: coming).toArray past.length s =
      .ok (.mapping s.mappings.size) (told past coming s) := by
  have hsize : (past ++ item :: coming).toArray.size = past.length + 1 + coming.length := by
    simp only [List.size_toArray, List.length_append, List.length_cons]
    omega
  have hprevious : (if past.length = 0 then Value.undefined .previousItem
      else (past ++ item :: coming).toArray[past.length - 1]?.getD .absent) =
      past.getLast?.getD (.undefined .previousItem) := by
    rcases past.eq_nil_or_concat with rfl | ⟨before, last, rfl⟩
    · rfl
    · simp
  have hnext : (past ++ item :: coming).toArray[past.length + 1]? = coming.head? := by
    simp [List.getElem?_append_right, List.head?_eq_getElem?]
  have hfirst : decide (past.length = 0) = past.isEmpty := by cases past <;> rfl
  have hlast : decide (past.length + 1 = past.length + 1 + coming.length) = coming.isEmpty := by
    cases coming <;> simp
  have hrevindex : past.length + 1 + coming.length - past.length = coming.length + 1 := by omega
  have hentries : Eval.loopContext (past ++ item :: coming).toArray past.length =
      (do Eval.mappingOf (entries past coming (← Eval.newNative (.cycle past.length)))) := by
    unfold Eval.loopContext
    simp only [hsize, hprevious, hnext, hfirst, hlast, hrevindex, Nat.add_sub_cancel]
    rfl
  let cycle : Value := .native s.serial (.cycle past.length)
  have hproperties : Properties.ofList ((entries past coming cycle).map fun p => (p.1, .data p.2)) =
      properties past coming cycle := Properties.ofList_eq (keysInOrder_properties past coming cycle)
  rw [hentries]
  change Eval.newMapping (Properties.ofList ((entries past coming cycle).map fun p => (p.1, .data p.2)))
    (s.newNative (.cycle past.length)).2 = _
  rw [hproperties]
  rfl

/-- A mapping tells each of its entries that is neither hidden nor a method. -/
theorem member_mapping {id : MappingId} {name : Text} {v : Value} (hhidden : Eval.isHidden name = false)
    (hmethod : KeyedMethod.ofName? name = none) (hentry : (t.mapping id).lookup name = some (.data v)) :
    Eval.member (.mapping id) name t = .ok v t := by
  rw [Eval.member_mapping_eq hhidden hmethod, Eval.ownValue?_of_get? hentry]
  rfl

/-- A mapping that has been given the facts tells them. -/
theorem tells_of_properties {id : MappingId} (cycle : Value) (h : s.mapping id = properties past coming cycle) :
    Tells s id (facts past coming) := by
  intro t ht fact hfact
  have hname : fact.1 ∈ names := by
    change fact.1 ∈ (facts past coming).map (·.1)
    exact List.mem_map_of_mem hfact
  obtain ⟨hhidden, hmethod⟩ := tellable fact.1 hname
  refine member_mapping hhidden hmethod ?_
  rw [ht, h]
  refine lookup_eq_some_of_mem (keysInOrder_properties past coming cycle).nodup ?_
  exact List.mem_map_of_mem (List.mem_append_left _ hfact)

/-- The store where a turn is ready: it has a scope, has been told about its place, and has `loop` bound to that. -/
def opened (scope : ScopeId) (past coming : List Value) (s : Store) : Store :=
  (told past coming (s.newScope (some scope) []).2).setVar s.scopes.size "loop" (.mapping s.mappings.size)

theorem opens_opened (scope : ScopeId) (past coming : List Value) (s : Store) :
    Opens scope past coming s (opened scope past coming s) where
  lists := rfl
  tables := rfl
  macros := rfl
  mappings id hid := by
    simp [opened, told, Store.setVar, Store.newMapping, Store.newNative, Store.newScope, Store.mapping,
      Array.getElem?_push, Nat.ne_of_lt hid]
  scopes i hi := (Store.scope_setVar_ne (Nat.ne_of_gt hi)).trans (Store.scope_newScope hi)
  inner := by
    have hscope : (told past coming (s.newScope (some scope) []).2).scope s.scopes.size = ⟨some scope, []⟩ :=
      Store.scope_newScope_self s (some scope) []
    have hsize : s.scopes.size < (told past coming (s.newScope (some scope) []).2).scopes.size :=
      (Nat.lt_succ_self _).trans_eq (Array.size_push _).symm
    unfold opened
    rw [Store.scope_setVar hsize, hscope]
    rfl
  tells := by
    refine tells_of_properties (.native s.serial (.cycle past.length)) ?_
    simp [opened, told, Store.setVar, Store.newMapping, Store.newNative, Store.newScope, Store.mapping]

/-! ## All turns -/

/-- What a loop does with the item at an index, where it has taken certain items. -/
def lap (features : Features) (depth : Nat) (scope : ScopeId) (target : Target) (body : List Stmt) (vs : List Value)
    (p : Value × Nat) : Eval Text := do
  let inner ← Eval.newScope scope
  Eval.setVar inner (Text.ofString "loop") (← Eval.loopContext vs.toArray p.2)
  Eval.assign target p.1 inner
  Eval.render features depth inner body

/-- Each turn opens, and then assigns the item and runs the body. -/
theorem lap_eq (past : List Value) (item : Value) (coming : List Value) (s : Store) :
    lap features depth scope target body (past ++ item :: coming) (item, past.length) s =
      turn features depth target body item s.scopes.size (opened scope past coming s) := by
  let start := (s.newScope (some scope) []).2
  have hnew : Eval.newScope scope s = .ok s.scopes.size start := rfl
  have hset : Eval.setVar s.scopes.size (Text.ofString "loop") (.mapping s.mappings.size) (told past coming start) =
      .ok ⟨⟩ (opened scope past coming s) := rfl
  unfold lap
  rw [bind_ok hnew, bind_ok (loopContext_eq past item coming start)]
  exact bind_ok hset

/-- One turn after another: the invariant is that what is past and what is coming are the items that were taken. -/
theorem turns_laps (coming : List Value) : ∀ (past : List Value) (s : Store),
    Turns features depth scope target body past coming s (mapResult List.flatten
      ((coming.zipIdx past.length).mapM (lap features depth scope target body (past ++ coming)) s)) := by
  induction coming with
  | nil => exact fun past s => .done
  | cons item coming ih =>
    intro past s
    have hopens := opens_opened scope past coming s
    have hlap : lap features depth scope target body (past ++ item :: coming) (item, past.length) s = _ :=
      lap_eq past item coming s
    rw [List.zipIdx_cons, List.mapM_cons]
    cases hturn : turn features depth target body item s.scopes.size (opened scope past coming s) with
    | error e u =>
      rw [bind_error (hlap.trans hturn)]
      exact .failed hopens hturn
    | ok text u =>
      have hrest := ih (past ++ [item]) u
      rw [List.length_append, List.append_assoc] at hrest
      rw [bind_ok (hlap.trans hturn), bind_pure_eq, mapResult_mapResult]
      have hnext := Turns.next hopens hturn hrest
      rwa [mapResult_mapResult] at hnext

/-- What a loop does when it has its items. -/
def laps (features : Features) (depth : Nat) (scope : ScopeId) (target : Target) (body otherwise : List Stmt)
    (vs : List Value) : Eval Text :=
  if vs.isEmpty then do
    Eval.render features depth (← Eval.newScope scope) otherwise
  else do
    return (← vs.zipIdx.mapM (lap features depth scope target body vs)).flatten

theorem goes_laps (otherwise : List Stmt) (vs : List Value) (s : Store) :
    Goes features depth scope target body otherwise vs s (laps features depth scope target body otherwise vs s) := by
  cases vs with
  | nil => exact .inl ⟨rfl, rfl⟩
  | cons item coming =>
    refine .inr ⟨List.cons_ne_nil item coming, ?_⟩
    unfold laps
    rw [List.isEmpty_cons, if_neg Bool.false_ne_true, bind_pure_eq]
    exact turns_laps (item :: coming) [] s

/-! ## The condition -/

variable {keep : Value → Eval Bool}

/-- One more place is looked at; what is kept is collected backwards. -/
def sift (keep : Value → Eval Bool) (done : List Value) (place : Store → Option Value) : Eval (List Value) := do
  match place (← get) with
  | some item => return if ← keep item then item :: done else done
  | none => return done

theorem exists_sifts (keep : Value → Eval Bool) (places : List (Store → Option Value)) :
    ∀ (done : List Value) (s : Store), ∃ kept, Sifts keep places s kept ∧
      places.foldlM (sift keep) done s = mapResult (fun vs => vs.reverse ++ done) kept := by
  induction places with
  | nil => exact fun done s => ⟨_, .done, rfl⟩
  | cons place places ih =>
    intro done s
    rw [List.foldlM_cons]
    cases hplace : place s with
    | none =>
      obtain ⟨kept, hsifts, hfold⟩ := ih done s
      have hsift : sift keep done place s = .ok done s := by
        refine (bind_ok (show (get : Eval Store) s = .ok s s from rfl)).trans ?_
        rw [hplace]
        rfl
      exact ⟨kept, .gone hplace hsifts, (bind_ok hsift).trans hfold⟩
    | some item =>
      have hsift : sift keep done place s =
          mapResult (fun holds => if holds then item :: done else done) (keep item s) := by
        refine (bind_ok (show (get : Eval Store) s = .ok s s from rfl)).trans ?_
        rw [hplace]
        exact bind_pure_eq _ (keep item) s
      cases hkeep : keep item s with
      | error e t =>
        rw [hkeep] at hsift
        exact ⟨_, .failed hplace hkeep, bind_error hsift⟩
      | ok holds t =>
        rw [hkeep] at hsift
        obtain ⟨kept, hsifts, hfold⟩ := ih (if holds then item :: done else done) t
        refine ⟨_, .tried hplace hkeep hsifts, ((bind_ok hsift).trans hfold).trans ?_⟩
        rw [mapResult_mapResult]
        congr 1
        funext vs
        cases holds <;> simp

theorem filterAuxM_eq (vs : List Value) : ∀ done : List Value,
    List.filterAuxM keep vs done = (vs.map fun v (_ : Store) => some v).foldlM (sift keep) done := by
  induction vs with
  | nil => exact fun done => rfl
  | cons v vs ih =>
    intro done
    have hsift : sift keep done (fun _ => some v) = (do return if ← keep v then v :: done else done) := rfl
    rw [List.filterAuxM, List.map_cons, List.foldlM_cons, hsift, bind_assoc]
    refine bind_congr fun holds => ?_
    rw [pure_bind, ih, Bool.cond_eq_ite]

/-- The items of a loop with a condition are sifted, whatever it goes over. -/
theorem sifts_keptItems (keep : Value → Eval Bool) {source : Value} (hitems : s.items? source = some vs) :
    Sifts keep (places source vs) s (Eval.keptItems source keep s) := by
  obtain ⟨kept, hsifts, hfold⟩ := exists_sifts keep (places source vs) [] s
  have hkept : (do return (← (places source vs).foldlM (sift keep) []).reverse : Eval (List Value)) s = kept := by
    rw [bind_pure_eq, hfold, mapResult_mapResult]
    cases kept <;> simp [mapResult]
  have hrun : Eval.keptItems source keep s =
      (do return (← (places source vs).foldlM (sift keep) []).reverse : Eval (List Value)) s := by
    have hitems' : Eval.items source s = .ok vs s := (Eval.run_items source s).trans (by rw [hitems]; rfl)
    have hfilter : (do return (← (vs.map fun v (_ : Store) => some v).foldlM (sift keep) []).reverse) =
        vs.filterM keep := by
      rw [← filterAuxM_eq]
      rfl
    cases source with
    | list id =>
      cases hitems
      have hplaces : places (.list id) (s.list id) =
          (List.range (s.list id).length).map fun i t => ((t.list id).drop i).head? := by
        simp only [places, List.head?_drop]
      refine (bind_ok (show Eval.read (·.list id) s = .ok (s.list id) s from rfl)).trans ?_
      rw [hplaces, List.foldlM_map]
      rfl
    | _ =>
      unfold places
      rw [hfilter]
      exact bind_ok hitems'
  rw [hrun, hkept]
  exact hsifts

end Loop

/-- A loop goes over the items that its source has when the loop starts: a list whatever it holds then, though the body
appends to it, extends it or takes items off it. There is one turn for each, in their order, and each is told about
those items. A loop with a condition tries it on all items before the first turn, and has turns for those it holds for;
if it fails on one, there is no turn at all. -/
theorem execute_loop_turns {source : Value} {iter : Expr} (line : Nat) (target : Target) (body otherwise : List Stmt)
    (hiter : Eval.evaluate features depth scope iter s = .ok source t) (hitems : t.items? source = some vs) :
    Loop.Goes features depth scope target body otherwise vs t
      (Eval.execute features (depth + 1) scope (.loop line target iter none body otherwise) s) ∧
    ∀ e : Expr,
      (∃ fault u,
        Loop.Sifts (Loop.condition features depth scope target e) (Loop.places source vs) t (.error fault u) ∧
        Eval.execute features (depth + 1) scope (.loop line target iter (some e) body otherwise) s = .error fault u) ∨
      ∃ kept u,
        Loop.Sifts (Loop.condition features depth scope target e) (Loop.places source vs) t (.ok kept u) ∧
        Loop.Goes features depth scope target body otherwise kept u
          (Eval.execute features (depth + 1) scope (.loop line target iter (some e) body otherwise) s) := by
  refine ⟨?_, fun e => ?_⟩
  · have hrun : Eval.items source t = .ok vs t := (Eval.run_items source t).trans (by rw [hitems]; rfl)
    have hexecute : Eval.execute features (depth + 1) scope (.loop line target iter none body otherwise) s =
        Loop.laps features depth scope target body otherwise vs t := by
      simp only [Eval.execute]
      rw [bind_ok hiter]
      exact bind_ok hrun
    rw [hexecute]
    exact Loop.goes_laps otherwise vs t
  · have hsifts := Loop.sifts_keptItems (Loop.condition features depth scope target e) hitems
    have hexecute : Eval.execute features (depth + 1) scope (.loop line target iter (some e) body otherwise) s =
        (Eval.keptItems source (Loop.condition features depth scope target e) >>=
          Loop.laps features depth scope target body otherwise) t := by
      simp only [Eval.execute]
      exact bind_ok hiter
    rw [hexecute]
    cases hkept : Eval.keptItems source (Loop.condition features depth scope target e) t with
    | error fault u =>
      rw [hkept] at hsifts
      exact .inl ⟨fault, u, hsifts, bind_error hkept⟩
    | ok kept u =>
      rw [hkept] at hsifts
      refine .inr ⟨kept, u, hsifts, ?_⟩
      rw [bind_ok hkept]
      exact Loop.goes_laps otherwise kept u

namespace Growing

def builtin : Features := ⟨false, builtinFilters, builtinTests⟩

/-- A scope with a list of two items. -/
def start : Store := { (Store.empty.newScope none [("xs", .list 0)]).2 with lists := #[[.number 1, .number 2]] }

def xs : Expr := .name ⟨"xs", 1, 13⟩

def x : Target := .name ⟨"x", 1, 8⟩

/-- The body appends to the list, and then writes the item and what it is told about the length. -/
def appending : List Stmt :=
  [.perform 1 (.call 1 (.member 1 (.name ⟨"xs", 1, 24⟩) "append") [.name ⟨"x", 1, 34⟩] []),
    .output 1 (.name ⟨"x", 1, 43⟩), .output 1 (.member 1 (.name ⟨"loop", 1, 50⟩) "length"), .text 1 " "]

/-- A condition that takes an item off the list. -/
def popping : Expr := .call 1 (.member 1 (.name ⟨"xs", 1, 19⟩) "pop") [] []

def loop (filter : Option Expr) : Eval Text := Eval.execute builtin 20 0 (.loop 1 x xs filter appending [])

end Growing

/-- Of a list that gets longer, the first two items have turns. Where the condition takes the second one off the list
before it is tried on it, the first alone has a turn. -/
theorem execute_loop_turns_of_append :
    Loop.Turns Growing.builtin 19 0 Growing.x Growing.appending [] [.number 1, .number 2] Growing.start
        (Growing.loop none Growing.start) ∧
      outcome (Growing.loop none) Growing.start = .ok "12 22 " ∧
      (after (Growing.loop none) Growing.start).list 0 = [.number 1, .number 2, .number 1, .number 2] ∧
      (∃ kept u, Loop.Sifts (Loop.condition Growing.builtin 19 0 Growing.x Growing.popping)
        (Loop.places (.list 0) [.number 1, .number 2]) Growing.start (.ok kept u) ∧
        Loop.Goes Growing.builtin 19 0 Growing.x Growing.appending [] kept u
          (Growing.loop (some Growing.popping) Growing.start)) ∧
      outcome (Growing.loop (some Growing.popping)) Growing.start = .ok "11 " := by
  have hiter : Eval.evaluate Growing.builtin 19 0 Growing.xs Growing.start = .ok (.list 0) Growing.start := by
    simp only [Growing.xs, Eval.evaluate]
    rfl
  obtain ⟨hgoes, hfilter⟩ := execute_loop_turns 1 Growing.x Growing.appending [] hiter rfl
  have hpopped : outcome (Growing.loop (some Growing.popping)) Growing.start = .ok "11 " := by decide +kernel
  refine ⟨?_, by decide +kernel, by decide +kernel, ?_, hpopped⟩
  · obtain ⟨hnone, -⟩ | ⟨-, hturns⟩ := hgoes
    · exact absurd hnone (List.cons_ne_nil _ _)
    · exact hturns
  · obtain ⟨fault, u, -, herror⟩ | hsome := hfilter Growing.popping
    · unfold outcome Growing.loop at hpopped
      rw [herror] at hpopped
      cases hpopped
    · exact hsome

end Stencil

import Stencil.Render.Filter
import Stencil.Template.Names

/-!
Running a template: expressions have values, statements give text. Scopes nest, loops run over the
items they find at the start, and a macro runs in the scope it was defined in. Nesting is limited.
-/

namespace Stencil

/-- The settings a template runs under. -/
structure Features where
  autoescape : Bool
  filters : List (Text × Filter)
  tests : List (Text × Test)

/-- Text with the characters replaced that have a meaning in markup. -/
def escapeMarkup (t : Text) : Text :=
  t.flatMap fun (u : CodeUnit) =>
    if u = '&' then Text.ofString "&amp;"
    else if u = '<' then Text.ofString "&lt;"
    else if u = '>' then Text.ofString "&gt;"
    else if u = '"' then Text.ofString "&#34;"
    else if u = '\'' then Text.ofString "&#39;"
    else [u]

def Constant.value : Constant → Value
  | .none => .none
  | .bool b => .bool b
  | .number x => .number x
  | .text t => .text t

namespace Eval

/-- The text that a value is written as. -/
def written (features : Features) (v : Value) : Eval Text := do
  let t ← display v
  return match features.autoescape, v with
    | true, .safe _ => t
    | true, _ => escapeMarkup t
    | false, _ => t

/-- The text of a macro or a captured body as a value. -/
def captured (features : Features) (t : Text) : Value := if features.autoescape then .safe t else .text t

/-- Binds a target in a scope; a tuple takes exactly as many items as it has names. -/
def assign (target : Target) (v : Value) (scope : ScopeId) : Eval Unit := do
  match target with
  | .name n => setVar scope n.text v
  | .tuple _ names =>
    let items ← items v
    if items.length != names.length then throw (.unpack names.length items.length)
    for (n, item) in names.zip items do
      setVar scope n.text item

/-- What a loop tells its body about the item at `index`. -/
def loopContext (cells : Array Value) (index : Nat) : Eval Value := do
  let size := cells.size
  let previous := if index = 0 then .undefined .previousItem else cells[index - 1]?.getD .absent
  let next := cells[index + 1]?.getD (.undefined .nextItem)
  let cycle ← newNative (.cycle index)
  mappingOf [(Text.ofString "index", .ofNat (index + 1)), (Text.ofString "index0", .ofNat index),
    (Text.ofString "revindex", .ofNat (size - index)), (Text.ofString "revindex0", .ofNat (size - index - 1)),
    (Text.ofString "first", .bool (index = 0)), (Text.ofString "last", .bool (index + 1 = size)),
    (Text.ofString "length", .ofNat size), (Text.ofString "previtem", previous),
    (Text.ofString "nextitem", next), (Text.ofString "cycle", cycle)]

/-- The items of a value that are kept. A list that is changed meanwhile is read where it stands, but
never beyond its first length. -/
def keptItems (v : Value) (keep : Value → Eval Bool) : Eval (List Value) := do
  match v with
  | .list id =>
    let length := (← read (·.list id)).length
    let kept ← (List.range length).foldlM (fun (kept : List Value) i => do
      match (← get).list id |>.drop i |>.head? with
      | some item => return if ← keep item then item :: kept else kept
      | none => return kept) []
    return kept.reverse
  | v => (← items v).filterM keep

/-- Binds a parameter: by position, by keyword, or by default. Gives back the keywords that are left. -/
def bindParam (routine : Text) (a : Arguments) (scope : ScopeId) (default : Expr → Eval Value)
    (named : List (Text × Value)) (param : Text) (default? : Option Expr) (i : Nat) :
    Eval (List (Text × Value)) := do
  match a.args[i]?, named.lookup param with
  | some _, some _ => throw (.argumentTwice routine param)
  | some v, none =>
    setVar scope param v
    return named
  | none, some v =>
    setVar scope param v
    return named.filter (·.1 != param)
  | none, none =>
    match default? with
    | some e => setVar scope param (← default e)
    | none => setVar scope param (.undefined (.parameter param))
    return named

/-- Binds the parameters of a macro. Defaults see the parameters before them. -/
def bindParams (m : Macro) (a : Arguments) (scope : ScopeId) (default : Expr → Eval Value) :
    Eval (List (Text × Value)) :=
  ((m.params.zip (alignDefaults m.params.length m.defaults)).zipIdx).foldlM
    (fun (named : List (Text × Value)) ((param, default?), i) =>
      bindParam m.name a scope default named param default? i) a.named

/-- Keywords with their values; of two with one name the later counts, in the place of the earlier. -/
def byKeyword (named : List (Text × Value)) : List (Text × Value) :=
  named.foldl (fun found (name, v) => assocSet name v found) []

mutual

/-- The value of an expression. -/
def evaluate (features : Features) : Nat → ScopeId → Expr → Eval Value
  | 0, _, _ => throw .tooDeep
  | depth + 1, scope, e => do
    match e with
    | .name n => read (·.resolve scope n.text)
    | .const _ c => return c.value
    | .list _ es | .tuple _ es => newList (← es.mapM (evaluate features depth scope))
    | .dict _ entries =>
      mappingOf (← entries.mapM fun (key, value) => do
        let key ← display (← evaluate features depth scope key)
        return (key, ← evaluate features depth scope value))
    | .member _ target name => member (← evaluate features depth scope target) name
    | .item _ target key =>
      let target ← evaluate features depth scope target
      item target (← evaluate features depth scope key)
    | .slice _ target start stop step =>
      let target ← evaluate features depth scope target
      let bound (e? : Option Expr) : Eval Value := match e? with
        | some e => evaluate features depth scope e
        | none => return .none
      let start ← bound start
      let stop ← bound stop
      slice target start stop (← bound step)
    | .call _ callee args named =>
      let callee ← evaluate features depth scope callee
      call features depth callee (← arguments features depth scope args named)
    | .filter _ target name args named =>
      match features.filters.lookup name with
      | none => throw (.unknownFilter name)
      | some f =>
        let target ← evaluate features depth scope target
        applyFilter f target (← arguments features depth scope args named)
    | .test _ target name args named negated =>
      match features.tests.lookup name with
      | none => throw (.unknownTest name)
      | some t =>
        let target ← evaluate features depth scope target
        let holds ← applyTest t target (← arguments features depth scope args named)
        return .bool (holds != negated)
    | .not _ operand => return .bool (!(← truthy (← evaluate features depth scope operand)))
    | .signed _ sign operand => signed sign (← evaluate features depth scope operand)
    | .binary _ op left right =>
      let left ← evaluate features depth scope left
      binary op left (← evaluate features depth scope right)
    | .logical _ op left right =>
      let left ← evaluate features depth scope left
      let holds ← truthy left
      if holds = (op = .and) then evaluate features depth scope right else return left
    | .compare _ first rest =>
      let first ← evaluate features depth scope first
      let result ← rest.foldlM (fun (state : Bool × Value) (op, operand) => do
        if !state.1 then return state
        let right ← evaluate features depth scope operand
        return (← compare op state.2 right, right)) (true, first)
      return .bool result.1
    | .cond _ value test otherwise =>
      if ← truthy (← evaluate features depth scope test) then evaluate features depth scope value
      else match otherwise with
        | some e => evaluate features depth scope e
        | none => return .undefined .otherwise

/-- The values of the arguments of a call, from left to right. -/
def arguments (features : Features) :
    Nat → ScopeId → List Expr → List (Text × Expr) → Eval Arguments
  | 0, _, _, _ => throw .tooDeep
  | depth + 1, scope, args, named => do
    let args ← args.mapM (evaluate features depth scope)
    let named ← named.mapM fun (name, e) => return (name, ← evaluate features depth scope e)
    return ⟨args, byKeyword named⟩

/-- The result of calling a value. -/
def call (features : Features) : Nat → Value → Arguments → Eval Value
  | 0, _, _ => throw .tooDeep
  | depth + 1, callee, a => do
    match callee with
    | .native _ f => callNative f a
    | .ofMacro id =>
      match (← get).macros[id]? with
      | none => return captured features []
      | some m =>
        let scope ← newScope m.scope
        let named ← bindParams m a scope (evaluate features depth scope)
        setVar scope (Text.ofString "varargs") (← newList (a.args.drop m.params.length))
        setVar scope (Text.ofString "kwargs") (← mappingOf named)
        return captured features (← render features depth scope m.body)
    | .undefined reason => throw (.undefined reason)
    | v => throw (.notCallable v.kind)

/-- The text of a body. -/
def render (features : Features) : Nat → ScopeId → List Stmt → Eval Text
  | 0, _, _ => throw .tooDeep
  | depth + 1, scope, body => return (← body.mapM (execute features depth scope)).flatten

/-- The text of a statement. -/
def execute (features : Features) : Nat → ScopeId → Stmt → Eval Text
  | 0, _, _ => throw .tooDeep
  | depth + 1, scope, stmt => do
    match stmt with
    | .text _ value => return value
    | .output _ e => written features (← evaluate features depth scope e)
    | .branches _ branches otherwise =>
      let taken ← branches.foldlM (fun (taken : Option (List Stmt)) (test, body) => do
        if taken.isSome then return taken
        return if ← truthy (← evaluate features depth scope test) then some body else none) none
      render features depth scope (taken.getD otherwise)
    | .loop _ target iter filter body otherwise =>
      let source ← evaluate features depth scope iter
      let kept ← match filter with
        | none => items source
        | some e => keptItems source fun item => do
          let inner ← newScope scope
          assign target item inner
          truthy (← evaluate features depth inner e)
      if kept.isEmpty then render features depth (← newScope scope) otherwise
      else
        let cells := kept.toArray
        let parts ← kept.zipIdx.mapM fun (item, i) => do
          let inner ← newScope scope
          setVar inner (Text.ofString "loop") (← loopContext cells i)
          assign target item inner
          render features depth inner body
        return parts.flatten
    | .assign _ target e =>
      assign target (← evaluate features depth scope e) scope
      return []
    | .capture _ target body =>
      let inner ← newScope scope
      let t ← render features depth inner body
      assign target (captured features t) scope
      return []
    | .define _ name params defaults body =>
      let m ← alloc (·.newMacro ⟨name, params.map (·.text), defaults, body, scope⟩)
      setVar scope name m
      return []
    | .perform _ e =>
      let _ ← evaluate features depth scope e
      return []

end

end Eval
end Stencil

import Stencil.Proofs.Marking.Binding
import Stencil.Proofs.Template.Parts

/-!
Templates and their loosened forms. A template may check that a value is a text, by adding the empty text to it, or that
some condition holds, by an expression that fails otherwise. A loosened form leaves such checks out, and may mark the
texts that were checked. A loosened form that is watched may stop where it cuts a slice from a marked text.
-/
namespace Stencil.Marking

/-! ## What an expression can be told of -/

/-- No value of the expression satisfies `p`. -/
def Never (features : Features) (p : Value → Prop) (e : Expr) : Prop :=
  ∀ n scope s v t, Eval.evaluate features n scope e s = .ok v t → ¬ p v

/-- The expression changes nothing where it has a value. -/
def Still (features : Features) (e : Expr) : Prop :=
  ∀ n scope s v t, Eval.evaluate features n scope e s = .ok v t → t = s

def IsText (v : Value) : Prop := v.text? ≠ none

def IsMarked (v : Value) : Prop := ∃ t, v = .safe t

def IsNumber (v : Value) : Prop := ∃ x, v = .number x

/-- A text that names a method, or is hidden. -/
def IsReserved (v : Value) : Prop := ∃ t, v.text? = some t ∧ isReserved t = true

/-- How far a loosened form may go: whether it must leave all marks as they are, and whether it may stop where it cuts a
slice from a marked text. -/
structure Leeway where
  features : Features
  strict : Prop
  watched : Prop

/-- A mark cannot tell the values of the expressions apart: marks stay as they are, or there is no text, or no mark. -/
def Clear (L : Leeway) (e e' : Expr) : Prop :=
  L.strict ∨ Never L.features IsText e ∨ Never L.features IsMarked e ∧ Never L.features IsMarked e'

/-! ## Templates -/

/-- The text of an expression; any other value is refused. -/
def textual (line line' : Nat) (e : Expr) : Expr := .binary line .add e (.const line' (.text []))

/-- The expression with its text marked. -/
def markedSafe (line : Nat) (e : Expr) : Expr := .filter line e (Text.ofString "safe") [] []

section loosened

variable (L : Leeway)

/-- The second expression is the first without its checks, and with marks on texts that were checked, unless marks stay
as they are. What an index, a slice or the filter that reverses works on must be clear of marks, and so must a key that
may name a method; but where it may stop, a slice may be cut from anything. Lines and places of names do not count. -/
inductive Loosened : Expr → Expr → Prop where
  | textual {l l' : Nat} {e e' : Expr} (hmarks : ¬ L.strict) (he : Loosened e e') : Loosened (textual l l' e) e'
  | marked {l l' l'' : Nat} {e e' : Expr} (hmarks : ¬ L.strict) (he : Loosened e e') :
      Loosened (Marking.textual l l' e) (markedSafe l'' e')
  | guarded {l : Nat} {e e' test failing : Expr} (he : Loosened e e') (htest : Still L.features test)
      (hfailing : Never L.features (fun _ => True) failing) : Loosened (.cond l e test (some failing)) e'
  | name {n n' : Name} (h : n.text = n'.text) : Loosened (.name n) (.name n')
  | const {l l' : Nat} (c : Constant) : Loosened (.const l c) (.const l' c)
  | list {l l' : Nat} {es es' : List Expr} (hes : List.Forall₂ Loosened es es') :
      Loosened (.list l es) (.list l' es')
  | tuple {l l' : Nat} {es es' : List Expr} (hes : List.Forall₂ Loosened es es') :
      Loosened (.tuple l es) (.tuple l' es')
  | dict {l l' : Nat} {ps ps' : List (Expr × Expr)}
      (hkeys : List.Forall₂ Loosened (ps.map (·.1)) (ps'.map (·.1)))
      (hvalues : List.Forall₂ Loosened (ps.map (·.2)) (ps'.map (·.2))) :
      Loosened (.dict l ps) (.dict l' ps')
  | member {l l' : Nat} {e e' : Expr} (he : Loosened e e') (attr : Text) :
      Loosened (.member l e attr) (.member l' e' attr)
  | item {l l' : Nat} {e e' key key' : Expr} (he : Loosened e e') (hkey : Loosened key key')
      (htarget : Clear L e e' ∨ Never L.features IsNumber key)
      (hclear : Clear L key key' ∨ Never L.features IsReserved key) :
      Loosened (.item l e key) (.item l' e' key')
  | slice {l l' : Nat} {e e' : Expr} {start start' stop stop' step step' : Option Expr} (he : Loosened e e')
      (hstart : Option.Rel Loosened start start') (hstop : Option.Rel Loosened stop stop')
      (hstep : Option.Rel Loosened step step') (htarget : L.watched ∨ Clear L e e') :
      Loosened (.slice l e start stop step) (.slice l' e' start' stop' step')
  | call {l l' : Nat} {e e' : Expr} {args args' : List Expr} {named named' : List (Text × Expr)}
      (he : Loosened e e') (hargs : List.Forall₂ Loosened args args')
      (hnames : named.map (·.1) = named'.map (·.1))
      (hnamed : List.Forall₂ Loosened (named.map (·.2)) (named'.map (·.2))) :
      Loosened (.call l e args named) (.call l' e' args' named')
  | filter {l l' : Nat} {e e' : Expr} {name : Text} {args args' : List Expr} {named named' : List (Text × Expr)}
      (he : Loosened e e') (hargs : List.Forall₂ Loosened args args')
      (hnames : named.map (·.1) = named'.map (·.1))
      (hnamed : List.Forall₂ Loosened (named.map (·.2)) (named'.map (·.2)))
      (htarget : L.features.filters.lookup name = some .reverse → Clear L e e') :
      Loosened (.filter l e name args named) (.filter l' e' name args' named')
  | test {l l' : Nat} {e e' : Expr} {name : Text} {args args' : List Expr} {named named' : List (Text × Expr)}
      {negated : Bool} (he : Loosened e e') (hargs : List.Forall₂ Loosened args args')
      (hnames : named.map (·.1) = named'.map (·.1))
      (hnamed : List.Forall₂ Loosened (named.map (·.2)) (named'.map (·.2))) :
      Loosened (.test l e name args named negated) (.test l' e' name args' named' negated)
  | not {l l' : Nat} {e e' : Expr} (he : Loosened e e') : Loosened (.not l e) (.not l' e')
  | signed {l l' : Nat} {sign : Sign} {e e' : Expr} (he : Loosened e e') :
      Loosened (.signed l sign e) (.signed l' sign e')
  | binary {l l' : Nat} {op : BinaryOp} {left left' right right' : Expr} (hleft : Loosened left left')
      (hright : Loosened right right') :
      Loosened (.binary l op left right) (.binary l' op left' right')
  | logical {l l' : Nat} {op : LogicalOp} {left left' right right' : Expr} (hleft : Loosened left left')
      (hright : Loosened right right') :
      Loosened (.logical l op left right) (.logical l' op left' right')
  | compare {l l' : Nat} {first first' : Expr} {rest rest' : List (CompareOp × Expr)}
      (hfirst : Loosened first first') (hops : rest.map (·.1) = rest'.map (·.1))
      (hrest : List.Forall₂ Loosened (rest.map (·.2)) (rest'.map (·.2))) :
      Loosened (.compare l first rest) (.compare l' first' rest')
  | cond {l l' : Nat} {value value' test test' : Expr} {otherwise otherwise' : Option Expr}
      (hvalue : Loosened value value') (htest : Loosened test test')
      (hotherwise : Option.Rel Loosened otherwise otherwise') :
      Loosened (.cond l value test otherwise) (.cond l' value' test' otherwise')

/-- The second statement is the first with loosened expressions. -/
inductive LoosenedStmt : Stmt → Stmt → Prop where
  | text {l l' : Nat} (value : Text) : LoosenedStmt (.text l value) (.text l' value)
  | output {l l' : Nat} {e e' : Expr} (he : Loosened L e e') : LoosenedStmt (.output l e) (.output l' e')
  | branches {l l' : Nat} {bs bs' : List (Expr × List Stmt)} {otherwise otherwise' : List Stmt}
      (htests : List.Forall₂ (Loosened L) (bs.map (·.1)) (bs'.map (·.1)))
      (hbodies : List.Forall₂ (List.Forall₂ LoosenedStmt) (bs.map (·.2)) (bs'.map (·.2)))
      (hotherwise : List.Forall₂ LoosenedStmt otherwise otherwise') :
      LoosenedStmt (.branches l bs otherwise) (.branches l' bs' otherwise')
  | loop {l l' : Nat} {target target' : Target} {iter iter' : Expr} {filter filter' : Option Expr}
      {body body' otherwise otherwise' : List Stmt} (htarget : SameTarget target target')
      (hiter : Loosened L iter iter') (hfilter : Option.Rel (Loosened L) filter filter')
      (hbody : List.Forall₂ LoosenedStmt body body')
      (hotherwise : List.Forall₂ LoosenedStmt otherwise otherwise') :
      LoosenedStmt (.loop l target iter filter body otherwise) (.loop l' target' iter' filter' body' otherwise')
  | assign {l l' : Nat} {target target' : Target} {e e' : Expr} (htarget : SameTarget target target')
      (he : Loosened L e e') : LoosenedStmt (.assign l target e) (.assign l' target' e')
  | capture {l l' : Nat} {target target' : Target} {body body' : List Stmt} (htarget : SameTarget target target')
      (hbody : List.Forall₂ LoosenedStmt body body') :
      LoosenedStmt (.capture l target body) (.capture l' target' body')
  | define {l l' : Nat} {name : Text} {params params' : List Name} {defaults defaults' : List Expr}
      {body body' : List Stmt} (hparams : params.map (·.text) = params'.map (·.text))
      (hdefaults : List.Forall₂ (Loosened L) defaults defaults')
      (hbody : List.Forall₂ LoosenedStmt body body') :
      LoosenedStmt (.define l name params defaults body) (.define l' name params' defaults' body')
  | perform {l l' : Nat} {e e' : Expr} (he : Loosened L e e') : LoosenedStmt (.perform l e) (.perform l' e')

/-- The second macro is the first with loosened code. -/
structure LoosenedMacro (m m' : Macro) : Prop where
  signature : m.signature = m'.signature
  defaults : List.Forall₂ (Loosened L) m.defaults m'.defaults
  body : List.Forall₂ (LoosenedStmt L) m.body m'.body

end loosened

/-- On what terms the run of a template is compared with that of its loosened form. -/
def Leeway.terms (L : Leeway) : Terms := ⟨LoosenedMacro L, L.strict, L.watched⟩

/-! ## What is not loosened -/

variable {L : Leeway}

/-- Where marks stay as they are, every expression is a loosened form of itself. -/
theorem Loosened.self (h : L.strict) (e : Expr) : Loosened L e e := by
  have hpart : ∀ x ∈ e.parts, Loosened L x x := fun x hx => Loosened.self h x
  have hparts : ∀ es : List Expr, (∀ x ∈ es, x ∈ e.parts) → List.Forall₂ (Loosened L) es es :=
    fun es hes => List.forall₂_same.mpr fun x hx => hpart x (hes x hx)
  have hoption : ∀ e? : Option Expr, (∀ x ∈ e?, x ∈ e.parts) → Option.Rel (Loosened L) e? e? := by
    intro e? he
    cases e? with
    | none => exact .none
    | some x => exact .some (hpart x (he x rfl))
  have hclear : ∀ x, Clear L x x := fun x => .inl h
  cases e with
  | name n => exact .name rfl
  | const l c => exact .const c
  | list l es => exact .list (hparts es fun x hx => hx)
  | tuple l es => exact .tuple (hparts es fun x hx => hx)
  | dict l ps =>
    refine .dict (hparts _ fun x hx => ?_) (hparts _ fun x hx => ?_) <;> obtain ⟨p, hp, rfl⟩ := List.mem_map.mp hx
    · exact List.mem_flatMap.mpr ⟨p, hp, by simp⟩
    · exact List.mem_flatMap.mpr ⟨p, hp, by simp⟩
  | member l e attr => exact .member (hpart e (by simp [Expr.parts])) attr
  | item l e key =>
    exact .item (hpart e (by simp [Expr.parts])) (hpart key (by simp [Expr.parts])) (.inl (hclear e)) (.inl (hclear key))
  | slice l e start stop step =>
    exact .slice (hpart e (by simp [Expr.parts])) (hoption start fun x hx => by simp_all [Expr.parts])
      (hoption stop fun x hx => by simp_all [Expr.parts]) (hoption step fun x hx => by simp_all [Expr.parts])
      (.inr (hclear e))
  | call l e args named =>
    exact .call (hpart e (by simp [Expr.parts])) (hparts args fun x hx => by simp [Expr.parts, hx]) rfl
      (hparts _ fun x hx => List.mem_cons_of_mem _ (List.mem_append_right _ hx))
  | filter l e name args named =>
    exact .filter (hpart e (by simp [Expr.parts])) (hparts args fun x hx => by simp [Expr.parts, hx]) rfl
      (hparts _ fun x hx => List.mem_cons_of_mem _ (List.mem_append_right _ hx)) fun _ => hclear e
  | test l e name args named negated =>
    exact .test (hpart e (by simp [Expr.parts])) (hparts args fun x hx => by simp [Expr.parts, hx]) rfl
      (hparts _ fun x hx => List.mem_cons_of_mem _ (List.mem_append_right _ hx))
  | not l e => exact .not (hpart e (by simp [Expr.parts]))
  | signed l sign e => exact .signed (hpart e (by simp [Expr.parts]))
  | binary l op left right => exact .binary (hpart left (by simp [Expr.parts])) (hpart right (by simp [Expr.parts]))
  | logical l op left right => exact .logical (hpart left (by simp [Expr.parts])) (hpart right (by simp [Expr.parts]))
  | compare l first rest =>
    exact .compare (hpart first (by simp [Expr.parts])) rfl (hparts _ fun x hx => List.mem_cons_of_mem _ hx)
  | cond l value test otherwise =>
    exact .cond (hpart value (by simp [Expr.parts])) (hpart test (by simp [Expr.parts]))
      (hoption otherwise fun x hx => by simp_all [Expr.parts])
termination_by sizeOf e
decreasing_by exact Expr.sizeOf_lt_of_mem_parts hx

theorem SameTarget.refl (target : Target) : SameTarget target target := by
  cases target with
  | name n => exact .name rfl
  | tuple l names => exact .tuple rfl

/-- Where marks stay as they are, every statement is a loosened form of itself. -/
theorem LoosenedStmt.self (h : L.strict) (stmt : Stmt) : LoosenedStmt L stmt stmt := by
  have hparts : ∀ body : List Stmt, (∀ x ∈ body, x ∈ stmt.parts) → List.Forall₂ (LoosenedStmt L) body body :=
    fun body hbody => List.forall₂_same.mpr fun x hx => LoosenedStmt.self h x
  have hself := Loosened.self h
  have hselves : ∀ es : List Expr, List.Forall₂ (Loosened L) es es := fun es => List.forall₂_same.mpr fun e _ => hself e
  cases stmt with
  | text l value => exact .text value
  | output l e => exact .output (hself e)
  | branches l bs otherwise =>
    refine .branches (hselves _) (List.forall₂_same.mpr fun body hbody => hparts body fun x hx => ?_)
      (hparts otherwise fun x hx => List.mem_append_right _ hx)
    obtain ⟨b, hb, rfl⟩ := List.mem_map.mp hbody
    exact List.mem_append_left _ (List.mem_flatMap.mpr ⟨b, hb, hx⟩)
  | loop l target iter filter body otherwise =>
    have hfilter : Option.Rel (Loosened L) filter filter := by
      cases filter with
      | none => exact .none
      | some e => exact .some (hself e)
    exact .loop (.refl target) (hself iter) hfilter (hparts body fun x hx => List.mem_append_left _ hx)
      (hparts otherwise fun x hx => List.mem_append_right _ hx)
  | assign l target e => exact .assign (.refl target) (hself e)
  | capture l target body => exact .capture (.refl target) (hparts body fun x hx => hx)
  | define l name params defaults body => exact .define rfl (hselves defaults) (hparts body fun x hx => hx)
  | perform l e => exact .perform (hself e)
termination_by sizeOf stmt
decreasing_by exact Stmt.sizeOf_lt_of_mem_parts (hbody x hx)

theorem LoosenedMacro.self (h : L.strict) (m : Macro) : LoosenedMacro L m m :=
  ⟨rfl, List.forall₂_same.mpr fun e _ => .self h e, List.forall₂_same.mpr fun stmt _ => .self h stmt⟩

end Stencil.Marking

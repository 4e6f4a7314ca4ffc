import Stencil.Proofs.Realm.Calling
import Stencil.Render.Environment

/-! Templates that run inside of a realm. A module of macros that shares the global variables reads and changes nothing
else that was there before it. -/
namespace Stencil.Realm

variable {ρ : Realm} {s : Store} {v : Value} {features : Features} {a : Arguments} {i : ScopeId}

/-! ## Targets, loops and parameters -/

theorem owns_captured (t : Text) : ρ.Owns s (Eval.captured features t) := by
  unfold Eval.captured
  split <;> exact owns_of_places rfl

theorem yields_setVars (pairs : List (Name × Value)) (hpairs : ∀ p ∈ pairs, ρ.Owns s p.2) (hi : ρ.Home s i) :
    ρ.Yields s (do for (n, item) in pairs do Eval.setVar i n.text item) fun _ _ => True := by
  induction pairs generalizing s with
  | nil => exact .pure trivial
  | cons p pairs ih =>
    obtain ⟨hp, hpairs⟩ := List.forall_mem_cons.mp hpairs
    rw [List.forIn_cons]
    simp only [bind_assoc, pure_bind]
    exact (yields_setVar hi p.1.text hp).bind fun t _ hst _ =>
      ih (fun q hq => (hpairs q hq).mono hst) (hi.mono hst)

theorem yields_assign (target : Target) (hv : ρ.Owns s v) (hi : ρ.Home s i) :
    ρ.Yields s (Eval.assign target v i) fun _ _ => True := by
  cases target with
  | name n => exact yields_setVar hi n.text hv
  | tuple line names =>
    refine (yields_items hv).bind fun t vs hst hvs => ?_
    dsimp only
    split
    · exact .throw
    · exact yields_setVars _ (fun p hp => hvs p.2 (List.of_mem_zip hp).2) (hi.mono hst)

/-- Of two arguments by one name the last stands. -/
theorem owns_byKeyword {ps : List (Text × Value)} (hps : ∀ p ∈ ps, ρ.Owns s p.2) (done : List (Text × Value))
    (hdone : ∀ p ∈ done, ρ.Owns s p.2) :
    ∀ p ∈ ps.foldl (fun found p => assocSet p.1 p.2 found) done, ρ.Owns s p.2 := by
  induction ps generalizing done with
  | nil => exact hdone
  | cons p ps ih =>
    obtain ⟨hp, hps⟩ := List.forall_mem_cons.mp hps
    refine ih hps _ fun q hq => ?_
    rcases mem_assocSet hq with rfl | hq
    · exact hp
    · exact hdone q hq

theorem yields_loopContext {vs : List Value} (hvs : ∀ v ∈ vs, ρ.Owns s v) (index : Nat) :
    ρ.Yields s (Eval.loopContext vs.toArray index) ρ.Owns := by
  have hcell : ∀ (k : Nat) (w : Value), ρ.Owns s w → ρ.Owns s (vs.toArray[k]?.getD w) := by
    intro k w hw
    rw [List.getElem?_toArray]
    exact owns_getElem?_getD hvs k hw
  have hprevious : ρ.Owns s (if index = 0 then .undefined .previousItem else vs.toArray[index - 1]?.getD .absent) := by
    split
    · exact owns_undefined _
    · exact hcell _ _ owns_absent
  have hnext := hcell (index + 1) (.undefined .nextItem) (owns_undefined _)
  refine (yields_newNative (f := .cycle index) fun p hp => nomatch hp).bind fun t f hst hf => yields_mappingOf ?_
  simp only [List.forall_mem_cons]
  exact ⟨owns_of_places rfl, owns_of_places rfl, owns_of_places rfl, owns_of_places rfl, owns_of_places rfl,
    owns_of_places rfl, owns_of_places rfl, hprevious.mono hst, hnext.mono hst, hf, fun p hp => nomatch hp⟩

theorem yields_keptItems {keep : Value → Eval Bool} (hv : ρ.Owns s v)
    (hkeep : ∀ t, s.Grows t → ∀ x, ρ.Owns t x → ρ.Yields t (keep x) fun _ _ => True) :
    ρ.Yields s (Eval.keptItems v keep) fun t vs => ∀ w ∈ vs, ρ.Owns t w := by
  have hother : ρ.Yields s (do (← Eval.items v).filterM keep) fun t vs => ∀ w ∈ vs, ρ.Owns t w := by
    refine (yields_items hv).bind fun t vs hst hvs => ?_
    have hfilter : ρ.Yields t (vs.filterM keep) fun _ ws => ∀ w ∈ ws, w ∈ vs :=
      .filterM fun u htu x hx => hkeep u (hst.trans htu) x ((hvs x hx).mono htu)
    exact hfilter.mono fun u ws htu hws w hw => (hvs w (hws w hw)).mono htu
  cases v with
  | list id =>
    refine .after_quiet (.read _) fun vs => ?_
    refine (Yields.foldlM (P := fun t kept => ∀ w ∈ kept, ρ.Owns t w) (b := []) (fun _ hw => nomatch hw)
      fun t hst kept hkept k _ => ?_).bind fun _ _ _ hkept => .pure fun w hw => hkept w (List.mem_reverse.mp hw)
    refine .get_bind fun ht => ?_
    cases hx : ((t.list id).drop k).head? with
    | none => exact .pure hkept
    | some x =>
      have hown : ρ.Owns t x := ht.list (hv.mono hst) x (List.mem_of_mem_drop (List.mem_of_head? hx))
      refine (hkeep t hst x hown).bind fun u holds htu _ => .pure fun w hw => ?_
      split at hw
      · rcases List.mem_cons.mp hw with rfl | hw
        · exact hown.mono htu
        · exact (hkept w hw).mono htu
      · exact (hkept w hw).mono htu
  | _ => exact hother

section parameters

variable {default : Expr → Eval Value} (hdefault : ∀ {t}, s.Grows t → ∀ e, ρ.Yields t (default e) ρ.Owns)
include hdefault

theorem yields_bindParam (ha : ρ.OwnsArguments s a) (hi : ρ.Home s i) (routine param : Text) (default? : Option Expr)
    (k : Nat) {named : List (Text × Value)} (hnamed : ∀ p ∈ named, ρ.Owns s p.2) :
    ρ.Yields s (Eval.bindParam routine a i default named param default? k) fun t xs => ∀ p ∈ xs, ρ.Owns t p.2 := by
  have hset : ∀ {t : Store} {v : Value}, s.Grows t → ρ.Owns t v →
      ρ.Yields t (do Eval.setVar i param v; return named) fun t xs => ∀ p ∈ xs, ρ.Owns t p.2 :=
    fun hst hv => (yields_setVar (hi.mono hst) param hv).bind fun _ _ htu _ =>
      .pure fun p hp => (hnamed p hp).mono (hst.trans htu)
  unfold Eval.bindParam
  split
  · exact .throw
  · rename_i v hv _
    exact hset (.refl s) (ha.args v (List.mem_of_getElem? hv))
  · rename_i v _ hv
    refine (yields_setVar hi param (hnamed _ (mem_of_lookup hv))).bind fun t _ hst _ => .pure fun p hp => ?_
    exact (hnamed p (List.mem_filter.mp hp).1).mono hst
  · cases default? with
    | some e => exact (hdefault (.refl s) e).bind fun t v hst hv => hset hst hv
    | none => exact hset (.refl s) (owns_undefined _)

theorem yields_bindParams (m : Macro) (ha : ρ.OwnsArguments s a) (hi : ρ.Home s i) :
    ρ.Yields s (Eval.bindParams m a i default) fun t xs => ∀ p ∈ xs, ρ.Owns t p.2 :=
  .foldlM ha.named fun _ hst _ hnamed _ _ =>
    yields_bindParam (fun htu => hdefault (hst.trans htu)) (ha.mono hst) (hi.mono hst) _ _ _ _ hnamed

end parameters

/-! ## Evaluation -/

/-- Evaluation to a depth, in a scope that was made since the start, stays in the realm. -/
structure Yielding (ρ : Realm) (features : Features) (n : Nat) : Prop where
  evaluate {s : Store} {i : ScopeId} {e : Expr} (hi : ρ.Home s i) :
    ρ.Yields s (Eval.evaluate features n i e) ρ.Owns
  arguments {s : Store} {i : ScopeId} {args : List Expr} {named : List (Text × Expr)} (hi : ρ.Home s i) :
    ρ.Yields s (Eval.arguments features n i args named) ρ.OwnsArguments
  call {s : Store} {v : Value} {a : Arguments} (hv : ρ.Owns s v) (ha : ρ.OwnsArguments s a) :
    ρ.Yields s (Eval.call features n v a) ρ.Owns
  render {s : Store} {i : ScopeId} {body : List Stmt} (hi : ρ.Home s i) :
    ρ.Yields s (Eval.render features n i body) fun _ _ => True
  execute {s : Store} {i : ScopeId} {stmt : Stmt} (hi : ρ.Home s i) :
    ρ.Yields s (Eval.execute features n i stmt) fun _ _ => True

theorem Yielding.zero : ρ.Yielding features 0 where
  evaluate _ := by
    unfold Eval.evaluate
    exact .throw
  arguments _ := by
    unfold Eval.arguments
    exact .throw
  call _ _ := by
    unfold Eval.call
    exact .throw
  render _ := by
    unfold Eval.render
    exact .throw
  execute _ := by
    unfold Eval.execute
    exact .throw

section steps

variable {n : Nat} (ih : ρ.Yielding features n)
include ih

theorem yields_optional (hi : ρ.Home s i) (e? : Option Expr) :
    ρ.Yields s
      (match e? with
        | some e => Eval.evaluate features n i e
        | none => return .none) ρ.Owns := by
  cases e? with
  | some e => exact ih.evaluate hi
  | none => exact .pure (owns_of_places rfl)

theorem yields_all (hi : ρ.Home s i) (es : List Expr) :
    ρ.Yields s (es.mapM (Eval.evaluate features n i)) fun t vs => ∀ v ∈ vs, ρ.Owns t v :=
  .mapM (fun htu hv => hv.mono htu) fun _ hst _ _ => ih.evaluate (hi.mono hst)

theorem yields_evaluate {e : Expr} (hi : ρ.Home s i) : ρ.Yields s (Eval.evaluate features (n + 1) i e) ρ.Owns := by
  cases e with
  | name name =>
    simp only [Eval.evaluate]
    exact .read fun hs => hs.resolve hi.has name.text
  | const line c =>
    simp only [Eval.evaluate]
    refine .pure (owns_of_places ?_)
    cases c <;> rfl
  | list line es | tuple line es =>
    simp only [Eval.evaluate]
    exact (yields_all ih hi es).bind fun _ _ _ hvs => yields_newList hvs
  | dict line entries =>
    simp only [Eval.evaluate]
    refine (Yields.mapM (P := fun t (p : Text × Value) => ρ.Owns t p.2) (fun htu hp => hp.mono htu)
      fun t hst p _ => ?_).bind
      fun _ _ _ hentries => yields_mappingOf hentries
    refine (ih.evaluate (hi.mono hst)).bind fun u key htu _ => .after_quiet (quiet_display key) fun _ => ?_
    exact (ih.evaluate ((hi.mono hst).mono htu)).bind fun _ _ _ hv => .pure hv
  | member line target name =>
    simp only [Eval.evaluate]
    exact (ih.evaluate hi).bind fun _ _ _ hv => yields_member hv name
  | item line target key =>
    simp only [Eval.evaluate]
    refine (ih.evaluate hi).bind fun t v hst hv => ?_
    exact (ih.evaluate (hi.mono hst)).bind fun u key htu _ => yields_item (hv.mono htu) key
  | slice line target start stop step =>
    simp only [Eval.evaluate]
    refine (ih.evaluate hi).bind fun t v hst hv => ?_
    replace hi := hi.mono hst
    refine (yields_optional ih hi start).bind fun u _ htu _ => ?_
    replace hi := hi.mono htu
    refine (yields_optional ih hi stop).bind fun u' _ hu' _ => ?_
    refine (yields_optional ih (hi.mono hu') step).bind fun u'' _ hu'' _ => ?_
    exact yields_slice (hv.mono (htu.trans (hu'.trans hu''))) _ _ _
  | call line callee args named =>
    simp only [Eval.evaluate]
    refine (ih.evaluate hi).bind fun t v hst hv => ?_
    exact (ih.arguments (hi.mono hst)).bind fun u a htu ha => ih.call (hv.mono htu) ha
  | filter line target name args named =>
    simp only [Eval.evaluate]
    split
    · exact .throw
    · refine (ih.evaluate hi).bind fun t v hst hv => ?_
      exact (ih.arguments (hi.mono hst)).bind fun u a htu ha => yields_applyFilter _ (hv.mono htu) ha
  | test line target name args named negated =>
    simp only [Eval.evaluate]
    split
    · exact .throw
    · refine (ih.evaluate hi).bind fun t v hst _ => (ih.arguments (hi.mono hst)).bind fun u a _ _ => ?_
      exact .after_quiet (quiet_applyTest v _ a) fun _ => .pure (owns_of_places rfl)
  | not line operand =>
    simp only [Eval.evaluate]
    exact (ih.evaluate hi).bind fun _ v _ _ => .after_quiet (quiet_truthy v) fun _ => .pure (owns_of_places rfl)
  | signed line sign operand =>
    simp only [Eval.evaluate]
    exact (ih.evaluate hi).bind fun _ _ _ hv => yields_signed sign hv
  | binary line op left right =>
    simp only [Eval.evaluate]
    refine (ih.evaluate hi).bind fun t v hst hv => ?_
    exact (ih.evaluate (hi.mono hst)).bind fun u w htu hw => yields_binary op (hv.mono htu) hw
  | logical line op left right =>
    simp only [Eval.evaluate]
    refine (ih.evaluate hi).bind fun t v hst hv => .after_quiet (quiet_truthy v) fun holds => ?_
    split
    · exact ih.evaluate (hi.mono hst)
    · exact .pure hv
  | compare line first rest =>
    simp only [Eval.evaluate]
    refine (ih.evaluate hi).bind fun t v hst _ => ?_
    refine (Yields.foldlM (P := fun _ _ => True) trivial fun u htu state _ p _ => ?_).bind
      fun _ _ _ _ => .pure (owns_of_places rfl)
    split
    · exact .pure trivial
    · exact (ih.evaluate (hi.mono (hst.trans htu))).bind fun _ w _ _ =>
        .after_quiet (quiet_compare state.2 w p.1) fun _ => .pure trivial
  | cond line value test otherwise =>
    cases otherwise <;> simp only [Eval.evaluate] <;>
      refine (ih.evaluate hi).bind fun t v hst _ => .after_quiet (quiet_truthy v) fun holds => ?_ <;> cases holds
    case none.true | some.true | some.false => exact ih.evaluate (hi.mono hst)
    case none.false => exact .pure (owns_undefined _)

theorem yields_arguments {args : List Expr} {named : List (Text × Expr)} (hi : ρ.Home s i) :
    ρ.Yields s (Eval.arguments features (n + 1) i args named) ρ.OwnsArguments := by
  simp only [Eval.arguments]
  refine (yields_all ih hi args).bind fun t vs hst hvs => ?_
  refine (Yields.mapM (P := fun t (p : Text × Value) => ρ.Owns t p.2) (fun htu hp => hp.mono htu)
    fun u htu p _ => ?_).bind
    fun u ps htu hps => .pure ⟨fun v hv => (hvs v hv).mono htu, owns_byKeyword hps [] (List.forall_mem_nil _)⟩
  exact (ih.evaluate (hi.mono (hst.trans htu))).bind fun _ _ _ hv => .pure hv

/-- A macro runs in a new scope inside that of its definition. -/
theorem yields_call (hv : ρ.Owns s v) (ha : ρ.OwnsArguments s a) :
    ρ.Yields s (Eval.call features (n + 1) v a) ρ.Owns := by
  cases v with
  | native k f =>
    simp only [Eval.call]
    exact yields_callNative hv ha
  | ofMacro id =>
    simp only [Eval.call]
    refine .get_bind fun hs => ?_
    split
    · exact .pure (owns_captured [])
    · rename_i m hm
      refine (yields_newScope (hs.macros id hv.ofMacro.1 m hm)).bind fun t scope hst hi => ?_
      replace ha := ha.mono hst
      refine (yields_bindParams (fun htu e => ih.evaluate (hi.mono htu)) m ha hi).bind fun u named htu hnamed => ?_
      replace ha := ha.mono htu
      replace hi := hi.mono htu
      refine (yields_newList fun w hw => ha.args w (List.mem_of_mem_drop hw)).bind fun u' rest hu' hrest => ?_
      replace hi := hi.mono hu'
      refine (yields_setVar hi _ hrest).bind fun u'' _ hu'' _ => ?_
      replace hi := hi.mono hu''
      refine (yields_mappingOf fun p hp => (hnamed p hp).mono (hu'.trans hu'')).bind fun x kwargs hx hkwargs => ?_
      replace hi := hi.mono hx
      refine (yields_setVar hi _ hkwargs).bind fun y _ hy _ => ?_
      exact (ih.render (hi.mono hy)).bind fun _ _ _ _ => .pure (owns_captured _)
  | _ =>
    simp only [Eval.call]
    exact .throw

theorem yields_render {body : List Stmt} (hi : ρ.Home s i) :
    ρ.Yields s (Eval.render features (n + 1) i body) fun _ _ => True := by
  simp only [Eval.render]
  refine (Yields.mapM (P := fun _ _ => True) (fun _ _ => trivial) fun t hst stmt _ => ?_).bind
    fun _ _ _ _ => .pure trivial
  exact ih.execute (hi.mono hst)

/-- The turns of a loop, or what stands for them where there are none. -/
theorem yields_laps (hi : ρ.Home s i) (target : Target) (body otherwise : List Stmt) {vs : List Value}
    (hvs : ∀ v ∈ vs, ρ.Owns s v) :
    ρ.Yields s
      (if vs.isEmpty then do
        Eval.render features n (← Eval.newScope i) otherwise
      else do
        let parts ← vs.zipIdx.mapM fun (item, k) => do
          let inner ← Eval.newScope i
          Eval.setVar inner (Text.ofString "loop") (← Eval.loopContext vs.toArray k)
          Eval.assign target item inner
          Eval.render features n inner body
        return parts.flatten) fun _ _ => True := by
  split
  · exact (yields_newScope hi).bind fun _ _ _ hinner => ih.render hinner
  · refine (Yields.mapM (P := fun _ _ => True) (fun _ _ => trivial) fun t hst p hp => ?_).bind
      fun _ _ _ _ => .pure trivial
    have hitem : ρ.Owns t p.1 := (hvs _ (List.fst_mem_of_mem_zipIdx hp)).mono hst
    refine (yields_newScope (hi.mono hst)).bind fun u inner htu hinner => ?_
    refine (yields_loopContext (fun v hv => (hvs v hv).mono (hst.trans htu)) p.2).bind fun u' _ hu' hcontext => ?_
    replace hinner := hinner.mono hu'
    refine (yields_setVar hinner _ hcontext).bind fun u'' _ hu'' _ => ?_
    replace hinner := hinner.mono hu''
    refine (yields_assign target (hitem.mono (htu.trans (hu'.trans hu''))) hinner).bind fun x _ hx _ => ?_
    exact ih.render (hinner.mono hx)

theorem yields_execute {stmt : Stmt} (hi : ρ.Home s i) :
    ρ.Yields s (Eval.execute features (n + 1) i stmt) fun _ _ => True := by
  cases stmt with
  | text line value =>
    simp only [Eval.execute]
    exact .pure trivial
  | output line e =>
    simp only [Eval.execute]
    exact (ih.evaluate hi).bind fun _ v _ _ => .of_quiet (quiet_written v features) fun _ => trivial
  | branches line bs otherwise =>
    simp only [Eval.execute]
    refine (Yields.foldlM (P := fun _ _ => True) trivial fun t hst taken _ b _ => ?_).bind
      fun t _ hst _ => ih.render (hi.mono hst)
    split
    · exact .pure trivial
    · exact (ih.evaluate (hi.mono hst)).bind fun _ v _ _ => .after_quiet (quiet_truthy v) fun _ => .pure trivial
  | loop line target iter filter body otherwise =>
    cases filter with
    | none =>
      simp only [Eval.execute]
      refine (ih.evaluate hi).bind fun t v hst hv => (yields_items hv).bind fun u vs htu hvs => ?_
      exact yields_laps ih (hi.mono (hst.trans htu)) target body otherwise hvs
    | some e =>
      simp only [Eval.execute]
      refine (ih.evaluate hi).bind fun t v hst hv => ?_
      replace hi := hi.mono hst
      refine (yields_keptItems hv fun u htu x hx => ?_).bind fun u vs htu hvs =>
        yields_laps ih (hi.mono htu) target body otherwise hvs
      refine (yields_newScope (hi.mono htu)).bind fun u' inner hu' hinner => ?_
      refine (yields_assign target (hx.mono hu') hinner).bind fun u'' _ hu'' _ => ?_
      exact (ih.evaluate (hinner.mono hu'')).bind fun _ w _ _ => .of_quiet (quiet_truthy w) fun _ => trivial
  | assign line target e =>
    simp only [Eval.execute]
    refine (ih.evaluate hi).bind fun t v hst hv => ?_
    exact (yields_assign target hv (hi.mono hst)).bind fun _ _ _ _ => .pure trivial
  | capture line target body =>
    simp only [Eval.execute]
    refine (yields_newScope hi).bind fun t inner hst hinner => (ih.render hinner).bind fun u _ htu _ => ?_
    exact (yields_assign target (owns_captured _) (hi.mono (hst.trans htu))).bind fun _ _ _ _ => .pure trivial
  | define line name params defaults body =>
    simp only [Eval.execute]
    refine (Yields.alloc fun hs => hs.newMacro hi).bind fun t m hst hm => ?_
    exact (yields_setVar (hi.mono hst) name hm).bind fun _ _ _ _ => .pure trivial
  | perform line e =>
    simp only [Eval.execute]
    exact (ih.evaluate hi).bind fun _ _ _ _ => .pure trivial

theorem Yielding.succ : ρ.Yielding features (n + 1) where
  evaluate hi := yields_evaluate ih hi
  arguments hi := yields_arguments ih hi
  call hv ha := yields_call ih hv ha
  render hi := yields_render ih hi
  execute hi := yields_execute ih hi

end steps

theorem yielding (ρ : Realm) (features : Features) : ∀ n, ρ.Yielding features n
  | 0 => .zero
  | n + 1 => (yielding ρ features n).succ

/-! ## Modules -/

variable {env : Environment} (hg : ρ.Has s (.scope, env.globals))
include hg

theorem yields_run (body : List Stmt) :
    ρ.Yields s (Eval.run env body []) fun t p => ρ.Home t p.2 := by
  have hopen : ρ.Yields s (Eval.alloc (·.newScope (some env.globals) [])) ρ.Home :=
    .alloc fun hs => hs.newScope (fun _ hk => Option.some.inj hk ▸ hg) fun _ hp => nomatch hp
  refine hopen.bind fun t outer _ houter => (yields_newScope houter).bind fun u scope _ hscope => ?_
  exact ((yielding ρ env.features depthLimit).render hscope).bind fun _ _ hu _ => .pure (hscope.mono hu)

/-- The macros of a module are of the realm. -/
theorem yields_macros (body : List Stmt) :
    ρ.Yields s (Eval.macros env body) fun t found => ∀ p ∈ found, ρ.Owns t p.2 := by
  have hexports : ρ.Yields s (Eval.exports env body) fun t found => ∀ p ∈ found, ρ.Owns t p.2 :=
    (yields_run hg body).bind fun t _ _ hscope => .get_bind fun ht => .pure (ht.scope hscope.has).vars
  exact hexports.bind fun _ _ _ hfound => .pure fun p hp => hfound p (List.mem_filter.mp hp).1

end Stencil.Realm

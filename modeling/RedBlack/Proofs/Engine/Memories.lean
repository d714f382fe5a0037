import RedBlack.Proofs.Engine.Container

/-!
# Comparators with Other Memories

The engine reads nothing out of the memory of its comparator. If a function carries the memory of
one comparator over to that of another, and the answers are the same (`Comparator.Carries`), it
carries every run with the one over to a run with the other (`Engine.Carries`): same answers, same
faults, same trees, events and released values. In particular a comparator that records its
questions makes no difference to what is done (`Comparator.carries_recording`).
-/

namespace RedBlack

variable {σ ρ τ K V α β : Type}

/-- The context with another memory. -/
def Context.mapMemory (f : σ → ρ) (context : Context σ K V) : Context ρ K V where
  tree := context.tree
  memory := f context.memory
  trace := context.trace
  released := context.released

/-- The function takes the memory of one comparator to that of the other, and both answer
alike. -/
def Comparator.Carries (f : σ → ρ) (comparator : Comparator σ K) (image : Comparator ρ K) : Prop :=
  ∀ a b memory, image a b (f memory) = ((comparator a b memory).1, f (comparator a b memory).2)

/-- Recording the questions changes no answer. -/
theorem Comparator.carries_recording (comparator : Comparator σ K) :
    Carries Record.memory comparator.recording comparator :=
  fun _ _ _ => rfl

namespace Engine

/-- The function takes every run of one action to a run of the other. -/
def Carries (f : σ → ρ) (action : EngineM σ K V α) (image : EngineM ρ K V α) : Prop :=
  ∀ context, image (context.mapMemory f) =
    match action context with
    | .ok answer after => .ok answer (after.mapMemory f)
    | .error fault after => .error fault (after.mapMemory f)

namespace Carries

variable {f : σ → ρ}

theorem pure (answer : α) :
    Carries f (Pure.pure answer : EngineM σ K V α) (Pure.pure answer) :=
  fun _ => rfl

theorem throw (fault : Fault) :
    Carries f (throw fault : EngineM σ K V α) (MonadExcept.throw fault) :=
  fun _ => rfl

/-- Actions are carried one after the other. -/
theorem bind {action : EngineM σ K V α} {image : EngineM ρ K V α} {next : α → EngineM σ K V β}
    {imageNext : α → EngineM ρ K V β} (h : Carries f action image)
    (hnext : ∀ answer, Carries f (next answer) (imageNext answer)) :
    Carries f (action >>= next) (image >>= imageNext) := by
  intro context
  have hfirst := h context
  simp only [Bind.bind, EStateM.bind]
  rw [hfirst]
  cases action context with
  | ok answer after => exact hnext answer after
  | error fault after => rfl

theorem map {action : EngineM σ K V α} {image : EngineM ρ K V α} (h : Carries f action image)
    (g : α → β) : Carries f (do return g (← action)) (do return g (← image)) :=
  h.bind fun _ => pure _

theorem onTree (action : LinkM K V α) :
    Carries f (Engine.onTree action) (Engine.onTree action) := by
  intro context
  simp only [Engine.onTree, Context.mapMemory]
  cases action context.tree with
  | ok answer tree => rfl
  | error fault tree => rfl

theorem inspect (question : LinkedTree K V → Except Fault α) :
    Carries f (Engine.inspect question) (Engine.inspect question) :=
  onTree _

theorem report (events : List Event) :
    Carries f (Engine.report events : EngineM σ K V Unit) (Engine.report events) :=
  fun _ => rfl

theorem release (values : List V) :
    Carries f (Engine.release values : EngineM σ K V Unit) (Engine.release values) :=
  fun _ => rfl

theorem onTreeReporting (action : LinkM K V (α × List Event)) :
    Carries f (Engine.onTreeReporting action) (Engine.onTreeReporting action) :=
  (onTree action).bind fun (_, events) => (report events).bind fun _ => pure _

theorem eraseNode (id : SlotId) :
    Carries f (Engine.eraseNode id : EngineM σ K V (K × V)) (Engine.eraseNode id) :=
  onTreeReporting _

section

variable {comparator : Comparator σ K} {image : Comparator ρ K}
  (h : Comparator.Carries f comparator image)

include h

theorem ask (a b : K) :
    Carries f (Engine.ask comparator a b : EngineM σ K V Ordering) (Engine.ask image a b) := by
  intro context
  simp only [Engine.ask, Context.mapMemory, h a b context.memory]
  rfl

/-! ### Access -/

theorem descendWithin (key : K) (steps : Nat) (parent : Link) (side : Side) (link : Link) :
    Carries f (Engine.descendWithin comparator key steps parent side link : EngineM σ K V Landing)
      (Engine.descendWithin image key steps parent side link) := by
  induction steps generalizing parent side link with
  | zero =>
    cases link with
    | none => exact pure _
    | some id => exact throw _
  | succ steps ih =>
    cases link with
    | none => exact pure _
    | some id =>
      refine (onTree _).bind fun node => (ask h key node.key).bind fun answer => ?_
      cases answer with
      | lt => exact ih _ _ _
      | eq => exact pure _
      | gt => exact ih _ _ _

theorem descend (key : K) :
    Carries f (Engine.descend comparator key : EngineM σ K V Landing)
      (Engine.descend image key) :=
  (onTree _).bind fun _ => (onTree _).bind fun _ => descendWithin h key _ _ _ _

theorem locate (key : K) :
    Carries f (Engine.locate comparator key : EngineM σ K V Link) (Engine.locate image key) := by
  refine (descend h key).bind fun landing => ?_
  cases landing with
  | found id => exact pure _
  | gap parent side => exact pure _

theorem get (key : K) :
    Carries f (Engine.get comparator key : EngineM σ K V (Except Error V))
      (Engine.get image key) := by
  refine (locate h key).bind fun link => ?_
  cases link with
  | none => exact pure _
  | some id => exact (onTree _).bind fun _ => pure _

theorem update (key : K) (change : V → V) :
    Carries f (Engine.update comparator key change) (Engine.update image key change) := by
  refine (locate h key).bind fun link => ?_
  cases link with
  | none => exact pure _
  | some id => exact (onTree _).bind fun _ => (onTree _).bind fun _ => pure _

theorem insert (key : K) (value : V) (policy : DuplicatePolicy) :
    Carries f (Engine.insert comparator key value policy)
      (Engine.insert image key value policy) := by
  refine (descend h key).bind fun landing => ?_
  cases landing with
  | found id =>
    cases policy with
    | overwrite => exact (onTree _).bind fun _ => pure _
    | reject => exact (release _).bind fun _ => pure _
  | gap parent side =>
    refine (onTreeReporting _).bind fun stored => ?_
    cases stored with
    | ok _ => exact pure _
    | error _ => exact (release _).bind fun _ => pure _

theorem remove (key : K) :
    Carries f (Engine.remove comparator key : EngineM σ K V (Except Error (K × V)))
      (Engine.remove image key) := by
  refine (locate h key).bind fun link => ?_
  cases link with
  | none => exact pure _
  | some id => exact (eraseNode id).bind fun _ => pure _

end

theorem outermost (side : Side) :
    Carries f (Engine.outermost side : EngineM σ K V (Except Error (K × V)))
      (Engine.outermost side) := by
  refine (inspect _).bind fun entry => ?_
  cases entry with
  | none => exact pure _
  | some entry => exact pure _

theorem pop (side : Side) :
    Carries f (Engine.pop side : EngineM σ K V (Except Error (K × V))) (Engine.pop side) := by
  refine (inspect _).bind fun link => ?_
  cases link with
  | none => exact pure _
  | some id => exact (eraseNode id).bind fun _ => pure _

theorem clear : Carries f (Engine.clear : EngineM σ K V Unit) Engine.clear :=
  (onTreeReporting _).bind fun _ => release _

/-! ### Cursors -/

theorem start : Carries f (Cursor.start : EngineM σ K V Cursor) Cursor.start :=
  (inspect _).bind fun _ => pure _

theorem step (cursor : Cursor) :
    Carries f (cursor.step : EngineM σ K V (Link × Cursor)) cursor.step := by
  obtain ⟨_ | ⟨id, rest⟩, yielded⟩ := cursor
  · exact pure _
  · exact (onTree _).bind fun _ => (inspect _).bind fun _ => pure _

theorem next (cursor : Cursor) :
    Carries f (cursor.next : EngineM σ K V (Option (K × V) × Cursor)) cursor.next := by
  refine (step cursor).bind fun (link, cursor) => ?_
  cases link with
  | none => exact pure _
  | some id => exact (onTree _).bind fun _ => pure _

theorem nextReplacing (cursor : Cursor) (value : V) :
    Carries f (cursor.nextReplacing value : EngineM σ K V (Option (K × V) × Cursor))
      (cursor.nextReplacing value) := by
  refine (step cursor).bind fun (link, cursor) => ?_
  cases link with
  | none => exact pure _
  | some id => exact (onTree _).bind fun _ => (onTree _).bind fun _ => pure _

section

variable {comparator : Comparator σ K} {image : Comparator ρ K}
  (h : Comparator.Carries f comparator image)

include h

theorem turnsWithin (key : K) (steps : Nat) (link : Link) (turns : List SlotId) :
    Carries f (Cursor.turnsWithin comparator key steps link turns : EngineM σ K V (List SlotId))
      (Cursor.turnsWithin image key steps link turns) := by
  induction steps generalizing link turns with
  | zero =>
    cases link with
    | none => exact pure _
    | some id => exact throw _
  | succ steps ih =>
    cases link with
    | none => exact pure _
    | some id =>
      refine (onTree _).bind fun node => (ask h key node.key).bind fun answer => ?_
      cases answer with
      | lt => exact ih _ _
      | eq => exact ih _ _
      | gt => exact ih _ _

theorem resume (removed : K) :
    Carries f (Cursor.resume comparator removed : EngineM σ K V Cursor)
      (Cursor.resume image removed) :=
  (onTree _).bind fun _ => (onTree _).bind fun _ => (turnsWithin h removed _ _ _).bind fun _ =>
    (report _).bind fun _ => pure _

theorem cut (cursor : Cursor) :
    Carries f (cursor.remove comparator : EngineM σ K V (Except Error (K × V) × Cursor))
      (cursor.remove image) := by
  obtain ⟨pending, _ | id⟩ := cursor
  · exact pure _
  · exact (eraseNode id).bind fun entry => (resume h entry.1).bind fun _ => pure _

theorem move (cursor : Cursor) (move : Cursor.Move V) :
    Carries f (cursor.move comparator move : EngineM σ K V (Cursor.Outcome K V × Cursor))
      (cursor.move image move) := by
  cases move with
  | next => exact (next cursor).bind fun _ => pure _
  | replace value => exact (nextReplacing cursor value).bind fun _ => pure _
  | hasNext => exact pure _
  | remove => exact (cut h cursor).bind fun _ => pure _

theorem moves (cursor : Cursor) (moves : List (Cursor.Move V)) :
    Carries f
      (Cursor.moves comparator moves cursor : EngineM σ K V (List (Cursor.Outcome K V) × Cursor))
      (Cursor.moves image moves cursor) := by
  induction moves generalizing cursor with
  | nil => exact pure _
  | cons first moves ih =>
    exact (move h cursor first).bind fun (_, cursor) => (ih cursor).bind fun _ => pure _

theorem retainWithin (keep : K → V → StateM τ (Bool × V)) (steps : Nat) (cursor : Cursor)
    (state : τ) :
    Carries f (Engine.retainWithin comparator keep steps cursor state)
      (Engine.retainWithin image keep steps cursor state) := by
  induction steps generalizing cursor state with
  | zero => exact throw _
  | succ steps ih =>
    refine (step cursor).bind fun (link, cursor) => ?_
    cases link with
    | none => exact pure _
    | some id =>
      refine (onTree _).bind fun node => ?_
      dsimp only
      generalize keep node.key node.value state = kept
      obtain ⟨⟨stays, value⟩, state⟩ := kept
      refine (onTree _).bind fun _ => ?_
      cases stays with
      | true => exact ih cursor state
      | false =>
        refine (cut h cursor).bind fun (entry, cursor) => ?_
        cases entry with
        | error _ => exact ih cursor state
        | ok entry => exact (release _).bind fun _ => ih cursor state

theorem retain (keep : K → V → StateM τ (Bool × V)) (state : τ) :
    Carries f (Engine.retain comparator keep state) (Engine.retain image keep state) :=
  (onTree _).bind fun _ => start.bind fun _ => retainWithin h keep _ _ _

/-! ### Operations -/

theorem operation (operation : Operation τ K V) :
    Carries f (operation.perform comparator) (operation.perform image) := by
  cases operation with
  | insert key value policy => exact (insert h key value policy).map _
  | get key => exact (get h key).map _
  | update key change => exact (update h key change).map _
  | contains key => exact ((locate h key).map _).map _
  | remove key => exact (remove h key).map _
  | outermost side => exact (outermost side).map _
  | pop side => exact (pop side).map _
  | clear => exact clear.bind fun _ => pure _
  | length => exact (inspect _).map _
  | isEmpty => exact (inspect _).map _
  | height => exact (inspect _).map _
  | capacity => exact (inspect _).map _
  | entries => exact (inspect _).map _
  | iterate view steps => exact (inspect _).map _
  | traverse steps => exact start.bind fun cursor => (moves h cursor steps).bind fun _ => pure _
  | retain keep state => exact (retain h keep state).map _
  | copy => exact (onTree _).bind fun _ => pure _

theorem mapOperation (operation : OrderedMap.Operation τ K V) :
    Carries f (operation.perform comparator) (operation.perform image) := by
  cases operation with
  | insert key value => exact (insert h key value .overwrite).map _
  | remove key => exact ((remove h key).map _).map _
  | removeEntry key => exact (remove h key).map _
  | shared shared => exact operation h shared

theorem setOperation (operation : OrderedSet.Operation τ K) :
    Carries f (operation.perform comparator) (operation.perform image) := by
  cases operation with
  | insert key => exact ((insert h key () .reject).map _).map _
  | remove key => exact ((remove h key).map _).map _
  | take key => exact ((remove h key).map _).map _
  | shared shared => exact Carries.operation h shared

end

/-- What succeeds with the one comparator succeeds with the other, with the same answer. -/
theorem eq_ok {action : EngineM σ K V α} {image : EngineM ρ K V α} (h : Carries f action image)
    {context after : Context σ K V} {answer : α} (hok : action context = .ok answer after) :
    image (context.mapMemory f) = .ok answer (after.mapMemory f) := by
  rw [h context, hok]

end Carries

end Engine

end RedBlack

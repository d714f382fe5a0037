import RedBlack.Proofs.Linked.Iterator
import RedBlack.Session.Perform

/-!
# Iteration over Lists

What the steps of an iterator answer, read off the list of the entries to come. An iterator
over a linked tree in order answers exactly so (`Iterator.At.steps_eq_ok`).
-/

namespace RedBlack

open RedBlack.Tree (Path)

variable {K V : Type}

namespace Session

/-- Take one step over a list of entries. -/
def listStep (view : View) (entries : List (K × V)) : IteratorStep → Reply K V × List (K × V)
  | .next => (.ofOption (fun entry => .item (view.item entry)) entries.head?, entries.tail)
  | .nth skipped =>
    (.ofOption (fun entry => .item (view.item entry)) entries[skipped]?,
      entries.drop (skipped + 1))
  | .length => (.number entries.length, entries)
  | .sizeHint => (.bounds entries.length entries.length, entries)
  | .fork => (.items (entries.map view.item), entries)
  | .rest => (.items (entries.map view.item), [])

/-- Take several steps over a list of entries. -/
def listSteps (view : View) : List IteratorStep → List (K × V) → List (Reply K V)
  | [], _ => []
  | step :: steps, entries =>
    let (reply, entries) := listStep view entries step
    reply :: listSteps view steps entries

end Session

namespace Iterator

variable {iterator : Iterator K V} {linked : LinkedTree K V} {path : Path (Cell K V)}
  {layout : Layout K V}

namespace At

theorem remaining_eq (h : iterator.At linked path) :
    iterator.remaining = (toCome path).length := by
  rw [h.remaining, toCome, List.length_map]

/-- A step of an iterator is a step over the entries to come. -/
theorem step_eq_ok (h : iterator.At linked path) (view : Session.View)
    (step : Session.IteratorStep) :
    ∃ after place,
      Session.iteratorStep view iterator step =
        .ok ((Session.listStep view (toCome path) step).1, after) ∧
      after.At linked place ∧ toCome place = (Session.listStep view (toCome path) step).2 := by
  cases step with
  | next =>
    obtain ⟨after, place, hnext, hat, hdrop⟩ := h.nth_eq_ok 0
    refine ⟨after, place, ?_, hat, hdrop.trans List.drop_one⟩
    -- `next` is `nth` without skipping
    rw [nth] at hnext
    rw [Session.iteratorStep, hnext, Session.listStep, List.head?_eq_getElem?]
    rfl
  | nth skipped =>
    obtain ⟨after, place, hnth, hat, hdrop⟩ := h.nth_eq_ok skipped
    refine ⟨after, place, ?_, hat, hdrop⟩
    rw [Session.iteratorStep, hnth]
    rfl
  | length =>
    refine ⟨iterator, path, ?_, h, rfl⟩
    rw [Session.iteratorStep, h.remaining_eq]
    rfl
  | sizeHint =>
    refine ⟨iterator, path, ?_, h, rfl⟩
    rw [Session.iteratorStep, sizeHint, h.remaining_eq]
    rfl
  | fork =>
    obtain ⟨_, _, hcollect, -, -⟩ := h.collect_eq_ok
    refine ⟨iterator, path, ?_, h, rfl⟩
    rw [Session.iteratorStep, hcollect]
    rfl
  | rest =>
    obtain ⟨after, place, hcollect, hat, hnil⟩ := h.collect_eq_ok
    refine ⟨after, place, ?_, hat, hnil⟩
    rw [Session.iteratorStep, hcollect]
    rfl

/-- Steps of an iterator are steps over the entries to come. -/
theorem steps_eq_ok (h : iterator.At linked path) (view : Session.View)
    (steps : List Session.IteratorStep) :
    Session.iteratorSteps view steps iterator =
      .ok (Session.listSteps view steps (toCome path)) := by
  induction steps generalizing iterator path with
  | nil => rfl
  | cons step steps ih =>
    obtain ⟨after, place, hstep, hat, hrest⟩ := h.step_eq_ok view step
    have htail := ih hat
    rw [hrest] at htail
    simp only [Session.iteratorSteps, hstep, bind, Except.bind, htail]
    rfl

end At

/-- An iteration over a linked tree is one over the list of its entries. -/
theorem iteratorSteps_eq_ok (h : linked.LaidOut layout) (view : Session.View)
    (steps : List Session.IteratorStep) :
    (do Session.iteratorSteps view steps (← Iterator.ofTree linked)) =
      .ok (Session.listSteps view steps (layout.tree.toList.map Cell.entry)) := by
  obtain ⟨iterator, hstart, hat⟩ := ofTree_eq_ok h
  have hafter := Tree.after_spine_left layout.tree []
  rw [Path.after, List.append_nil] at hafter
  have hsteps := hat.steps_eq_ok view steps
  rw [toCome, hafter] at hsteps
  simp only [hstart, bind, Except.bind, hsteps]

end Iterator

end RedBlack

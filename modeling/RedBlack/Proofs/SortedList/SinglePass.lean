import RedBlack.Proofs.Engine.Filtering
import RedBlack.Proofs.SortedList.Containers

/-!
# Filters in a Single Pass

Under a comparator that follows an order, a filter calls `keep` once for each entry, in ascending
order of the keys, with the stored key and the value as it is (`SortedList.filter_is_single_pass`).
What the calls answer says everything about what it leaves: the entries that stay, with their
new values, and the values that are released. The tree is the one that a cursor leaves which
goes to the end and removes the same entries, down to the colours, the links and the slots.
-/

namespace RedBlack

open RedBlack.Tree (Path)

variable {σ τ υ K V : Type}

namespace SortedList

/-- What a filter does whose calls of `keep` are these, on a sorted list of entries: it ends in the
state `final`. -/
structure SinglePass (comparator : Comparator σ K) (keep : K → V → StateM τ (Bool × V)) (state : τ)
    (context : Context σ K V) (calls : List (Call K V)) (final : τ) (after : Context σ K V) : Prop
    extends Engine.Replays comparator keep state context calls final after where
  /-- There is one call for each entry, in their order, with the stored key and value. -/
  once : context.tree.entries = .ok (calls.map Call.entry)
  /-- Afterwards there are the entries that stay, in their order, with the values left in them. -/
  kept : after.tree.entries = .ok (calls.filterMap Call.kept)

/-- A recorded pass over a list makes one call for each entry. -/
theorem retain_recording (keep : K → V → StateM τ (Bool × V)) (entries : List (K × V))
    (state : τ × List (Call K V)) :
    ∃ calls, (retain (recording keep) entries state).1.2 = state.2 ++ calls ∧
      calls.map Call.entry = entries ∧
      (retain (recording keep) entries state).2 = calls.filterMap Call.kept := by
  induction entries generalizing state with
  | nil => exact ⟨[], (List.append_nil _).symm, rfl, rfl⟩
  | cons entry rest ih =>
    obtain ⟨key, value⟩ := entry
    rcases hkeep : recording keep key value state with ⟨⟨stays, left⟩, state'⟩
    obtain ⟨calls, hcalls, hentries, hkept⟩ := ih state'
    refine ⟨⟨(key, value), stays, left⟩ :: calls, ?_, ?_, ?_⟩
    · simp only [retain, hkeep]
      rw [hcalls, (of_recording_eq hkeep).2, List.append_assoc]
      rfl
    · rw [List.map_cons, hentries]
    · simp only [retain, hkeep, hkept]
      cases stays with
      | true => rfl
      | false => rfl

variable {order : Order K} {comparator : Comparator σ K} {snapshot : Snapshot σ K V}
  {entries : List (K × V)}

/-- Over a sorted list, a filter is a single pass. -/
theorem Agrees.singlePass [Std.TransCmp order] (hfollows : comparator.Follows order)
    (h : Agrees order snapshot entries) (keep : K → V → StateM τ (Bool × V)) (state : τ)
    {tree : LinkedTree K V} (hlaid : tree.LaidOut snapshot.layout) :
    ∃ calls final after,
      SinglePass comparator keep state (snapshot.around tree) calls final after ∧
        calls.map Call.entry = entries := by
  rcases hresult : snapshot.retain comparator (recording keep)
    (snapshot.layout.tree.spine .left []) (state, []) with ⟨⟨final, calls⟩, after⟩
  obtain ⟨new, hnew, hreplays⟩ := Snapshot.replays comparator keep hresult hlaid
  obtain ⟨made, hmade, hentries, hkept⟩ := retain_recording keep entries (state, [])
  have hpass := h.stands_start.retain hfollows (recording keep) (state, [])
  rw [Place.start, hresult] at hpass
  obtain ⟨hstate, hagrees⟩ := hpass
  -- the calls are those of the pass over the list
  obtain rfl : calls = made := (congrArg Prod.snd hstate).trans hmade
  refine ⟨calls, final, _, ⟨hreplays, ?_, ?_⟩, hentries⟩
  · rw [hentries, ← h.entries_eq]
    exact LinkedTree.entries_eq_ok hlaid
  · refine (LinkedTree.entries_eq_ok hnew).trans (congrArg Except.ok ?_)
    exact hagrees.entries_eq.trans hkept

/-- Under a comparator that follows an order, on every container that was reached, a filter calls
`keep` exactly once for each entry, in ascending order of the keys, with the stored key and the
value as it is. Afterwards the container holds the entries that stay, in their old order, with the
values left in them; the values of the others were released in ascending order of their keys. The
tree is the one that a cursor leaves which goes to the end and removes the same entries. -/
theorem filter_is_single_pass [Std.TransCmp order] (hfollows : comparator.Follows order)
    {room : Room} {capacity : Nat} {arena : Arena K V}
    (hnew : Arena.withCapacity room capacity = .ok arena) (memory : σ)
    (operations : List (Operation υ K V)) (keep : K → V → StateM τ (Bool × V)) (state : τ) :
    ∃ answers context calls final after,
      Engine.run (Operation.perform comparator) operations (.ofArena arena memory) =
        .ok answers context ∧
      Ascending order (calls.map Call.entry) ∧
      SinglePass comparator keep state context calls final after := by
  obtain ⟨answers, snapshot, tree, entries, hok, hlaid, h⟩ :=
    Agrees.exists_reached hfollows hnew memory operations
  obtain ⟨calls, final, after, hpass, rfl⟩ := h.singlePass hfollows keep state hlaid
  exact ⟨_, _, calls, final, after, hok, h.ascending, hpass⟩

/-- A filter that counts its calls, changes values and drops every other entry, under an order that
calls keys equal if they have the same tens. -/
theorem filter_is_single_pass_tens :
    ∃ answers context calls final after,
      Engine.run (Operation.perform (.ofOrder (compareOn (· / 10))))
        [.insert 12 1 .overwrite, .insert 35 2 .overwrite, .insert 21 3 .overwrite,
          .insert 47 4 .reject, (.insert 14 5 .overwrite : Operation Unit Nat Nat)]
        (.ofArena (Arena.empty ⟨8, 24⟩) ()) = .ok answers context ∧
      Ascending (compareOn (· / 10)) (calls.map Call.entry) ∧
      SinglePass (.ofOrder (compareOn (· / 10)))
        (fun _ value visits => ((visits % 2 == 1, value + visits), visits + 1)) 0 context calls
        final after :=
  filter_is_single_pass (Comparator.follows_ofOrder (compareOn (· / 10)))
    (rfl : Arena.withCapacity ⟨8, 24⟩ 0 = .ok (Arena.empty ⟨8, 24⟩)) () _ _ _

end SortedList

end RedBlack

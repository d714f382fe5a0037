import RedBlack.Proofs.SortedList.Basic

/-!
# Access to Sorted Lists

A comparator follows an order if it gives the answers of the order, whatever it remembers. Then
the descent for a key ends where the key belongs in the sorted list of the entries
(`Agrees.of_seek`), and every access by key or by position is the one on the list.
-/

namespace RedBlack

open RedBlack.Tree (Frame Path)

variable {σ τ K V : Type}

/-- The comparator always answers by an order. -/
def Comparator.Follows (comparator : Comparator σ K) (order : Order K) : Prop :=
  ∀ a b memory, (comparator a b memory).1 = order a b

/-- Paying no heed to its memory, a comparator follows its order. -/
theorem Comparator.follows_ofOrder (order : Order K) :
    (Comparator.ofOrder order : Comparator σ K).Follows order :=
  fun _ _ _ => rfl

namespace SortedList

/-- A container has the entries of a list, which is ascending. -/
structure Agrees (order : Order K) (snapshot : Snapshot σ K V) (entries : List (K × V)) : Prop where
  /-- The entries are those of the list. -/
  entries_eq : snapshot.entries = entries
  /-- The list is ascending. -/
  ascending : Ascending order entries

/-- An operation gives the expected answer, if there is one, and leaves the expected
entries. -/
structure Conforms {B : Type} (order : Order K) (result : B × Snapshot σ K V)
    (expected : Option B × List (K × V)) : Prop where
  /-- The answer is the expected one. -/
  answer : ∀ answer ∈ expected.1, result.1 = answer
  /-- The entries are the expected ones. -/
  agrees : Agrees order result.2 expected.2

/-- An operation whose answer is not determined conforms if it leaves the expected entries. -/
theorem Conforms.of_none {B : Type} {order : Order K} {result : B × Snapshot σ K V}
    {entries : List (K × V)} (h : Agrees order result.2 entries) :
    Conforms order result (none, entries) := by
  refine ⟨?_, h⟩
  rintro _ ⟨⟩

/-- An operation whose answer is determined conforms if it gives this answer. -/
theorem Conforms.of_some {B : Type} {order : Order K} {result : B × Snapshot σ K V} {answer : B}
    {entries : List (K × V)} (hanswer : result.1 = answer) (h : Agrees order result.2 entries) :
    Conforms order result (some answer, entries) := by
  refine ⟨?_, h⟩
  rintro _ ⟨⟩
  exact hanswer

variable {order : Order K} {comparator : Comparator σ K} {snapshot after : Snapshot σ K V}
  {entries : List (K × V)} {key : K} {tree left right : Tree (Cell K V)}
  {path : Path (Cell K V)} {color : Color} {cell : Cell K V}

namespace Agrees

/-- Only the tree matters. -/
theorem congr (h : Agrees order snapshot entries)
    (htree : after.layout.tree.toList = snapshot.layout.tree.toList) :
    Agrees order after entries := by
  refine ⟨?_, h.ascending⟩
  rw [Snapshot.entries, htree]
  exact h.entries_eq

section

variable [Std.TransCmp order] (hfollows : comparator.Follows order)
  (h : Agrees order snapshot entries)

include hfollows h

/-- The descent for a key ends between the smaller and the greater keys, or at the equal
one. -/
theorem of_seek (hseek : snapshot.seek comparator key = ((tree, path), after)) :
    after.layout = snapshot.layout ∧ tree.under path = snapshot.layout.tree ∧
      Tree.Parts (fun cell => order key cell.key) path ∧
      ∀ color left cell right, tree = .node color left cell right → order key cell.key = .eq := by
  obtain ⟨hunder, hlayout⟩ := Snapshot.of_seek_eq hseek
  have hranked : Tree.Ranked (fun cell : Cell K V => order key cell.key)
      (snapshot.layout.tree.under []).toList := by
    have hlist := h.ascending.ranked key
    rw [← h.entries_eq] at hlist
    exact List.pairwise_map.1 hlist
  -- what the comparator remembers makes no difference to its answers
  have hask : ∀ (cell : Cell K V) memory,
      (comparator.probe key cell memory).1 = order key cell.key :=
    fun cell memory => hfollows key cell.key memory
  have hparts := Tree.parts_seek hask Tree.parts_nil hranked snapshot.memory
  have hplace : (snapshot.layout.tree.seek (comparator.probe key) [] snapshot.memory).1 =
      (tree, path) := congrArg Prod.fst hseek
  rw [hplace] at hparts
  exact ⟨hlayout, hlayout ▸ hunder, hparts⟩

/-- A descent that ends in an empty place parts the list there. -/
theorem of_seek_nil (hseek : snapshot.seek comparator key = ((.nil, path), after)) :
    entries = (Path.before path).map Cell.entry ++ (Path.after path).map Cell.entry ∧
      (∀ e ∈ (Path.before path).map Cell.entry, order key e.1 = .gt) ∧
      ∀ e ∈ (Path.after path).map Cell.entry, order key e.1 = .lt := by
  obtain ⟨-, hunder, ⟨hbefore, hafter⟩, -⟩ := h.of_seek hfollows hseek
  refine ⟨?_, List.forall_mem_map.2 hbefore, List.forall_mem_map.2 hafter⟩
  rw [← h.entries_eq, Snapshot.entries, ← hunder, Tree.toList_under, ← List.map_append]
  simp [Tree.toList]

/-- A descent that ends at a node has found the equal key. -/
theorem of_seek_node
    (hseek : snapshot.seek comparator key = ((.node color left cell right, path), after)) :
    entries = (Path.before path ++ left.toList).map Cell.entry ++
        cell.entry :: (right.toList ++ Path.after path).map Cell.entry ∧
      (∀ e ∈ (Path.before path ++ left.toList).map Cell.entry, order key e.1 = .gt) ∧
      order key cell.key = .eq := by
  obtain ⟨-, hunder, -, hcell⟩ := h.of_seek hfollows hseek
  have heq := hcell color left cell right rfl
  have hentries : entries = (Path.before path ++ left.toList).map Cell.entry ++
      cell.entry :: (right.toList ++ Path.after path).map Cell.entry := by
    rw [← h.entries_eq, Snapshot.entries, ← hunder, Tree.toList_node_under, List.map_append,
      List.map_cons]
  have hranked := h.ascending.ranked key
  rw [hentries] at hranked
  refine ⟨hentries, hranked.before ?_, heq⟩
  rw [Cell.entry, heq]
  decide

/-- The found node, as an entry of the list. -/
theorem find?_of_seek (hseek : snapshot.seek comparator key = ((tree, path), after)) :
    find? order key entries =
      match tree with
      | .nil => none
      | .node _ _ cell _ => some cell.entry := by
  cases tree with
  | nil =>
    obtain ⟨rfl, hfront, hback⟩ := h.of_seek_nil hfollows hseek
    exact find?_append_of_parts hfront hback
  | node color left cell right =>
    obtain ⟨rfl, hfront, heq⟩ := h.of_seek_node hfollows hseek
    exact find?_append_cons hfront heq

theorem seek (hseek : snapshot.seek comparator key = ((tree, path), after)) :
    Agrees order after entries :=
  h.congr (congrArg (fun layout => layout.tree.toList) (h.of_seek hfollows hseek).1)

/-- Changing the value of the found node stores the value in the list. -/
theorem withValue
    (hseek : snapshot.seek comparator key = ((.node color left cell right, path), after))
    (value : V) :
    Agrees order
      (after.withTree ((Tree.node color left (cell.withValue value) right).under path))
      (store order key value entries) := by
  obtain ⟨hentries, hfront, heq⟩ := h.of_seek_node hfollows hseek
  have hstore : store order key value ((Path.before path ++ left.toList).map Cell.entry ++
      cell.entry :: (right.toList ++ Path.after path).map Cell.entry) = _ :=
    store_append_cons hfront heq value
  rw [← hentries] at hstore
  refine ⟨?_, h.ascending.of_keys_sublist ?_⟩
  · rw [hstore, Snapshot.entries, Snapshot.withTree, Tree.toList_node_under, List.map_append,
      List.map_cons]
    rfl
  · rw [hstore, hentries]
    simp [Cell.entry]

/-- Storing an entry, unless storage could not grow. -/
theorem insert (key : K) (value : V) (policy : DuplicatePolicy) :
    ((snapshot.insert comparator key value policy).1 = .error .allocationFailure ∧
        Agrees order (snapshot.insert comparator key value policy).2 entries) ∨
      ((snapshot.insert comparator key value policy).1 =
          (SortedList.insert order key value policy entries).1 ∧
        Agrees order (snapshot.insert comparator key value policy).2
          (SortedList.insert order key value policy entries).2) := by
  rcases hseek : snapshot.seek comparator key with
    ⟨⟨_ | ⟨color, left, cell, right⟩, path⟩, after⟩
  all_goals
    have hfind := h.find?_of_seek hfollows hseek
    have hsame := h.seek hfollows hseek
    simp only [Snapshot.insert, hseek, SortedList.insert, hfind]
  · obtain ⟨hentries, hfront, hback⟩ := h.of_seek_nil hfollows hseek
    -- storage either refuses, and nothing changes, or the new cell parts the list
    rcases after.of_insertAt key path value with
      ⟨hfailed, hlayout, -⟩ | ⟨hstored, -, slot, hlist⟩
    · exact .inl ⟨hfailed, hsame.congr (by rw [hlayout])⟩
    · have hstore := store_append_of_parts hfront hback value
      rw [← hentries] at hstore
      refine .inr ⟨hstored, ?_, ?_⟩
      · rw [hstore, Snapshot.entries, hlist, List.map_append, List.map_cons]
        rfl
      · rw [hstore]
        exact (hentries ▸ h.ascending).insert hfront hback value
  · cases policy with
    | overwrite => exact .inr ⟨rfl, h.withValue hfollows hseek value⟩
    | reject => exact .inr ⟨rfl, hsame.congr rfl⟩

theorem get :
    Conforms order (snapshot.perform comparator (.get key : Operation τ K V))
      (perform order (.get key) entries) := by
  rcases hseek : snapshot.seek comparator key with
    ⟨⟨_ | ⟨color, left, cell, right⟩, path⟩, after⟩
  all_goals
    have hfind := h.find?_of_seek hfollows hseek
    simp only [perform, hfind, Snapshot.perform, Snapshot.get, hseek]
    exact .of_some rfl (h.seek hfollows hseek)

theorem contains :
    Conforms order (snapshot.perform comparator (.contains key : Operation τ K V))
      (perform order (.contains key) entries) := by
  rcases hseek : snapshot.seek comparator key with
    ⟨⟨_ | ⟨color, left, cell, right⟩, path⟩, after⟩
  all_goals
    have hfind := h.find?_of_seek hfollows hseek
    simp only [perform, hfind, Snapshot.perform, Snapshot.contains, hseek]
    exact .of_some rfl (h.seek hfollows hseek)

theorem update (change : V → V) :
    Conforms order (snapshot.perform comparator (.update key change : Operation τ K V))
      (perform order (.update key change) entries) := by
  rcases hseek : snapshot.seek comparator key with
    ⟨⟨_ | ⟨color, left, cell, right⟩, path⟩, after⟩
  all_goals
    have hfind := h.find?_of_seek hfollows hseek
    simp only [perform, hfind, Snapshot.perform, Snapshot.update, hseek]
  · exact .of_some rfl (h.seek hfollows hseek)
  · exact .of_some rfl (h.withValue hfollows hseek (change cell.value))

theorem remove (key : K) :
    (snapshot.remove comparator key).1 = orError .keyNotFound (find? order key entries) ∧
      Agrees order (snapshot.remove comparator key).2 (erase order key entries) := by
  rcases hseek : snapshot.seek comparator key with
    ⟨⟨_ | ⟨color, left, cell, right⟩, path⟩, after⟩
  all_goals
    have hfind := h.find?_of_seek hfollows hseek
    simp only [Snapshot.remove, hseek, hfind]
  · rw [erase_eq_of_find?_eq_none hfind]
    exact ⟨rfl, h.seek hfollows hseek⟩
  · obtain ⟨hentries, hfront, heq⟩ := h.of_seek_node hfollows hseek
    have herase : erase order key ((Path.before path ++ left.toList).map Cell.entry ++
        cell.entry :: (right.toList ++ Path.after path).map Cell.entry) = _ :=
      erase_append_cons hfront heq
    rw [← hentries] at herase
    obtain ⟨-, hlist⟩ := after.toList_erase color left cell right path
    refine ⟨rfl, ?_, h.ascending.of_keys_sublist ?_⟩
    · rw [herase, Snapshot.entries, hlist, List.append_assoc, List.map_append]
    · rw [herase, hentries]
      exact ((List.sublist_cons_self _ _).append_left _).map Prod.fst

end

section

variable (h : Agrees order snapshot entries)

include h

/-- The outermost entry is the first or the last one of the list, and the entries around it
are the others. -/
theorem of_spine_eq_cons {side : Side} {frame : Frame (Cell K V)}
    (hspine : snapshot.layout.tree.spine side [] = frame :: path) :
    outermost side entries = .ok frame.entry.entry ∧
      pop side entries = (Path.before path ++ (frame.left .nil).toList ++
        (frame.right .nil).toList ++ Path.after path).map Cell.entry := by
  rw [← h.entries_eq, Snapshot.entries, Tree.toList_of_spine_eq_cons hspine]
  cases side with
  | left => exact ⟨rfl, rfl⟩
  | right =>
    rw [Side.attach, List.map_append]
    constructor
    · simp [outermost, orError]
    · simp [pop]

theorem of_spine_eq_nil {side : Side} (hspine : snapshot.layout.tree.spine side [] = []) :
    entries = [] := by
  rw [← h.entries_eq, Snapshot.entries, Tree.eq_nil_of_spine_eq_nil hspine]
  rfl

theorem outermost (comparator : Comparator σ K) (side : Side) :
    Conforms order (snapshot.perform comparator (.outermost side : Operation τ K V))
      (perform order (.outermost side) entries) := by
  refine .of_some ?_ h
  simp only [Snapshot.perform, Snapshot.outermost]
  rcases hspine : snapshot.layout.tree.spine side [] with _ | ⟨frame, path⟩
  · rw [h.of_spine_eq_nil hspine]
    cases side <;> rfl
  · rw [(h.of_spine_eq_cons hspine).1]

theorem pop (comparator : Comparator σ K) (side : Side) :
    Conforms order (snapshot.perform comparator (.pop side : Operation τ K V))
      (perform order (.pop side) entries) := by
  -- on both sides, the keys that stay are still ascending
  have hkeys : ((SortedList.pop side entries).map Prod.fst).Sublist (entries.map Prod.fst) := by
    cases side with
    | left => exact (List.tail_sublist entries).map Prod.fst
    | right => exact (List.dropLast_sublist entries).map Prod.fst
  simp only [Snapshot.perform, Snapshot.pop]
  rcases hspine : snapshot.layout.tree.spine side [] with _ | ⟨frame, path⟩
  · obtain rfl := h.of_spine_eq_nil hspine
    cases side <;> exact .of_some rfl h
  · obtain ⟨houtermost, hpop⟩ := h.of_spine_eq_cons hspine
    obtain ⟨-, hlist⟩ := snapshot.toList_erase frame.color (frame.left .nil) frame.entry
      (frame.right .nil) path
    refine .of_some (congrArg Answer.entry houtermost.symm) ⟨?_, h.ascending.of_keys_sublist hkeys⟩
    rw [hpop, Snapshot.entries, ← hlist]
    rfl

end

end Agrees

theorem Conforms.clear (comparator : Comparator σ K) (snapshot : Snapshot σ K V)
    (entries : List (K × V)) :
    Conforms order (snapshot.perform comparator (.clear : Operation τ K V))
      (perform order .clear entries) := by
  refine .of_some rfl ⟨?_, .nil⟩
  have hnil : (snapshot.perform comparator (.clear : Operation τ K V)).2.layout.tree = .nil :=
    snapshot.layout.tree_clear
  rw [Snapshot.entries, hnil]
  rfl

end SortedList

end RedBlack

import Grintorrent.Htable.Listing

/-!
# The table as gossip sees it

For the exchange of definitions a client's table is a finite map from hashes to
definitions, given by the list of its values.  A table on which only calls that
neither grow it nor leave the array were made answers `search_htable` and
`list_tfiles` as this map does.
-/

namespace Grintorrent

/-- The definitions in a client's table. -/
abbrev Defs := List TfileDef

namespace Defs

/-- `add_htable`: the definition first added under a hash stays. -/
def add (defs : Defs) (tdef : TfileDef) : Defs :=
  if defs.any fun held => held.fHash == tdef.fHash then defs else defs ++ [tdef]

/-- `list_tfiles`. -/
def list (defs : Defs) : List TfileDef :=
  defs.filter fun tdef => 0 < tdef.size

variable {defs : Defs} {tdef held : TfileDef}

@[simp] theorem mem_list : tdef ∈ defs.list ↔ tdef ∈ defs ∧ 0 < tdef.size := by
  simp [list]

theorem subset_add (defs : Defs) (tdef : TfileDef) : defs ⊆ defs.add tdef := by
  unfold add
  split <;> simp

theorem mem_of_mem_add (member : held ∈ defs.add tdef) : held ∈ defs ∨ held = tdef := by
  unfold add at member
  split at member
  · exact .inl member
  · simpa using member

/-- A definition is in the table after it was added, unless another definition had
its hash. -/
theorem mem_add_self
    (unique : ∀ held ∈ defs, held.fHash = tdef.fHash → held = tdef) :
    tdef ∈ defs.add tdef := by
  unfold add
  split
  next present =>
      simp only [List.any_eq_true, beq_iff_eq] at present
      obtain ⟨held, member, same⟩ := present
      exact unique held member same ▸ member
  next => simp

/-- The map that a sequence of calls on the table leads to. -/
def ofCalls (calls : List TableOp) : Defs :=
  calls.foldl (fun defs op =>
    match op with
    | .add tdef => defs.add tdef
    | _ => defs) []

@[simp] theorem ofCalls_add (calls : List TableOp) (tdef : TfileDef) :
    ofCalls (calls ++ [.add tdef]) = (ofCalls calls).add tdef := by
  simp [ofCalls]

@[simp] theorem ofCalls_search (calls : List TableOp) (hash : Digest) :
    ofCalls (calls ++ [.search hash]) = ofCalls calls := by
  simp [ofCalls]

@[simp] theorem ofCalls_attach (calls : List TableOp) (hash : Digest)
    (fLocation : Option Path) (mLocation : Option Mapping) :
    ofCalls (calls ++ [.attach hash fLocation mLocation]) = ofCalls calls := by
  simp [ofCalls]

theorem fHash_of_firstAdded {calls : List TableOp} {hash : Digest}
    (first : firstAdded calls hash = some tdef) : tdef.fHash = hash := by
  obtain ⟨op, _, found⟩ := List.exists_of_findSome?_eq_some first
  cases op with
  | add added =>
      simp only [Option.ite_none_right_eq_some, Option.some.injEq] at found
      exact found.2 ▸ found.1
  | search query => simp at found
  | attach query fLocation mLocation => simp at found

theorem mem_ofCalls {calls : List TableOp} :
    tdef ∈ ofCalls calls ↔ firstAdded calls tdef.fHash = some tdef := by
  induction calls using List.reverseRecOn generalizing tdef with
  | nil => simp [ofCalls, firstAdded]
  | append_singleton calls op ih =>
      rw [firstAdded, List.findSome?_append, ← firstAdded]
      cases op with
      | search hash => simp [ih]
      | attach hash fLocation mLocation => simp [ih]
      | add added =>
          rw [ofCalls_add, add]
          by_cases same : added.fHash = tdef.fHash
          · split
            next present =>
                simp only [List.any_eq_true, beq_iff_eq] at present
                obtain ⟨held, member, equal⟩ := present
                have first := ih.mp member
                rw [equal, same] at first
                simp [ih, first]
            next absent =>
                have none : firstAdded calls tdef.fHash = none := by
                  rw [Option.eq_none_iff_forall_ne_some]
                  intro held first
                  have equal := fHash_of_firstAdded first
                  rw [← equal] at first
                  exact absent (List.any_eq_true.mpr
                    ⟨held, ih.mpr first, by simp [equal, same]⟩)
                simp [ih, none, same, eq_comm]
          · have different : tdef ≠ added := fun equal => same (equal ▸ rfl)
            split <;> simp [ih, same, different]

end Defs

/-- After a calm run `search_htable` and `list_tfiles` answer as the map does. -/
theorem CalmRun.refines_defs {callocOk : Nat → Bool} {calls : List TableOp} {ht : Htable}
    (run : CalmRun callocOk calls ht) :
    (∀ {tdef : TfileDef} {result : Option Nat}, searchHtable ht tdef.fHash = .ok result →
      ((result.bind fun index => ht.table[index]?).map Tfile.tdef = some tdef ↔
        tdef ∈ Defs.ofCalls calls)) ∧
    ∃ listed, Grintorrent.listTfiles ht = .ok listed ∧
      ∀ tdef, tdef ∈ listed ↔ tdef ∈ (Defs.ofCalls calls).list := by
  constructor
  · intro tdef result returned
    rw [run.refines.search returned, TableMap.ofCalls_tdef, Defs.mem_ofCalls]
  · obtain ⟨listed, returned, members⟩ := run.listTfiles
    refine ⟨listed, returned, fun tdef => ?_⟩
    rw [members, Defs.mem_list, Defs.mem_ofCalls]

end Grintorrent

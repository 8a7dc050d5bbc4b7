import Mathlib

namespace PkgManager.InsertionOrder

/-- A set that remembers the order in which its elements were added. -/
structure OrderedSet (α : Type) where
  items : List α
  nodup : items.Nodup

namespace OrderedSet

variable {α : Type} {s : OrderedSet α} {a b : α}

instance : Membership α (OrderedSet α) := ⟨fun s a => a ∈ s.items⟩

def empty : OrderedSet α := ⟨[], List.nodup_nil⟩

def size (s : OrderedSet α) : Nat := s.items.length

theorem mem_items : a ∈ s.items ↔ a ∈ s := Iff.rfl

@[simp] theorem not_mem_empty : a ∉ (empty : OrderedSet α) := List.not_mem_nil

/-- Delete the oldest elements as long as they satisfy a test. -/
def dropWhile (p : α → Bool) (s : OrderedSet α) : OrderedSet α :=
  ⟨s.items.dropWhile p, s.nodup.sublist (List.dropWhile_sublist p)⟩

/-- Delete the oldest elements until at most `n` remain. -/
def trim (s : OrderedSet α) (n : Nat) : OrderedSet α :=
  ⟨s.items.drop (s.items.length - n), s.nodup.sublist (List.drop_sublist _ _)⟩

theorem mem_of_dropWhile {p : α → Bool} (h : a ∈ s.dropWhile p) : a ∈ s :=
  (List.dropWhile_sublist p).subset h

variable [DecidableEq α]

instance (a : α) (s : OrderedSet α) : Decidable (a ∈ s) := inferInstanceAs (Decidable (a ∈ s.items))

/-- An element that is already there keeps its place. -/
def add (s : OrderedSet α) (a : α) : OrderedSet α :=
  ⟨if a ∈ s.items then s.items else s.items ++ [a], by
    split
    · exact s.nodup
    · rename_i hnew
      exact List.nodup_append'.mpr ⟨s.nodup, List.nodup_singleton a, by simpa using hnew⟩⟩

def delete (s : OrderedSet α) (a : α) : OrderedSet α := ⟨s.items.erase a, s.nodup.erase a⟩

@[simp] theorem mem_add : b ∈ s.add a ↔ b ∈ s ∨ b = a := by
  show b ∈ (if a ∈ s.items then s.items else s.items ++ [a]) ↔ b ∈ s.items ∨ b = a
  split
  · rename_i hold
    exact ⟨.inl, fun h => h.elim id fun hb => hb ▸ hold⟩
  · rw [List.mem_append, List.mem_singleton]

@[simp] theorem mem_delete : b ∈ s.delete a ↔ b ∈ s ∧ b ≠ a :=
  (s.nodup.mem_erase_iff).trans and_comm

end OrderedSet

/-- A map that remembers the order in which its keys were set. -/
structure OrderedMap (α β : Type) where
  entries : List (α × β)
  nodup : (entries.map Prod.fst).Nodup

namespace OrderedMap

variable {α β : Type} {m : OrderedMap α β} {a b : α} {v : β} {f : β → β}

def empty : OrderedMap α β := ⟨[], List.nodup_nil⟩

def keys (m : OrderedMap α β) : List α := m.entries.map Prod.fst

def size (m : OrderedMap α β) : Nat := m.entries.length

instance : Membership α (OrderedMap α β) := ⟨fun m a => a ∈ m.keys⟩

@[simp] theorem not_mem_empty : a ∉ (empty : OrderedMap α β) := List.not_mem_nil

variable [DecidableEq α]

instance (a : α) (m : OrderedMap α β) : Decidable (a ∈ m) := inferInstanceAs (Decidable (a ∈ m.keys))

def get (m : OrderedMap α β) (a : α) : Option β :=
  (m.entries.find? fun e => e.1 = a).map Prod.snd

def delete (m : OrderedMap α β) (a : α) : OrderedMap α β :=
  ⟨m.entries.filter fun e => e.1 ≠ a, m.nodup.sublist (List.filter_sublist.map _)⟩

/-- Change the value of a key in place, where there is one. -/
def modify (m : OrderedMap α β) (a : α) (f : β → β) : OrderedMap α β :=
  ⟨m.entries.map fun e => if e.1 = a then (e.1, f e.2) else e, by
    rw [List.map_map]
    refine (List.map_congr_left fun e _ => ?_) ▸ m.nodup
    rw [Function.comp_apply]
    split <;> rfl⟩

/-- A key that is already there keeps its place. -/
def set (m : OrderedMap α β) (a : α) (v : β) : OrderedMap α β :=
  if h : a ∈ m.keys then m.modify a fun _ => v
  else ⟨m.entries ++ [(a, v)], by
    rw [List.map_append]
    exact List.nodup_append'.mpr ⟨m.nodup, List.nodup_singleton a, by simpa [keys] using h⟩⟩

theorem get_eq_some : m.get a = some v ↔ (a, v) ∈ m.entries := by
  unfold get
  rw [Option.map_eq_some_iff]
  constructor
  · rintro ⟨⟨k, u⟩, hfind, rfl⟩
    have hk : k = a := by simpa using List.find?_some hfind
    exact hk ▸ List.mem_of_find?_eq_some hfind
  · intro hmem
    cases hfind : m.entries.find? fun e => e.1 = a with
    | none => simpa using List.find?_eq_none.mp hfind _ hmem
    | some e =>
      have he : e.1 = a := by simpa using List.find?_some hfind
      refine ⟨e, rfl, ?_⟩
      have := List.inj_on_of_nodup_map m.nodup (List.mem_of_find?_eq_some hfind) hmem he
      rw [this]

theorem mem_iff : a ∈ m ↔ ∃ v, m.get a = some v := by
  simp only [get_eq_some]
  exact ⟨fun h => by obtain ⟨⟨k, v⟩, hmem, rfl⟩ := List.mem_map.mp h; exact ⟨v, hmem⟩,
    fun ⟨v, h⟩ => List.mem_map.mpr ⟨_, h, rfl⟩⟩

theorem not_mem_iff : a ∉ m ↔ m.get a = none := by
  rw [mem_iff, not_exists, Option.eq_none_iff_forall_ne_some]

@[simp] theorem get_empty : (empty : OrderedMap α β).get a = none := rfl

theorem get_modify : (m.modify a f).get b = if b = a then (m.get b).map f else m.get b := by
  show ((m.entries.map _).find? _).map _ = if b = a then (get m b).map f else get m b
  unfold get
  induction m.entries with
  | nil => simp
  | cons e es ih =>
    simp only [List.map_cons, List.find?_cons]
    by_cases hba : b = a
    · subst hba
      by_cases he : e.1 = b <;> simp_all
    · by_cases he : e.1 = a
      · have hab : ¬ a = b := fun h => hba h.symm
        simp_all
      · by_cases hb : e.1 = b <;> simp_all

theorem get_delete : (m.delete a).get b = if b = a then none else m.get b := by
  unfold get delete
  rw [List.find?_filter]
  split
  · rename_i hb
    subst hb
    rw [List.find?_eq_none.mpr fun e _ => by simp]
    rfl
  · rename_i hb
    congr 2
    funext e
    by_cases he : e.1 = b <;> simp [he, hb]

theorem get_set : (m.set a v).get b = if b = a then some v else m.get b := by
  unfold set
  split
  · rename_i hmem
    rw [get_modify]
    split
    · rename_i hb
      subst hb
      obtain ⟨w, hw⟩ := mem_iff.mp hmem
      rw [hw]
      rfl
    · rfl
  · rename_i hnew
    show ((m.entries ++ [(a, v)]).find? _).map _ = _
    rw [List.find?_append]
    split
    · rename_i hb
      subst hb
      have hnone : m.entries.find? (fun e => e.1 = b) = none :=
        Option.map_eq_none_iff.mp (not_mem_iff.mp hnew)
      rw [hnone]
      simp
    · rename_i hb
      rw [List.find?_cons_of_neg (by simpa using Ne.symm hb)]
      simp [get]

@[simp] theorem mem_set : b ∈ m.set a v ↔ b ∈ m ∨ b = a := by
  rw [mem_iff, mem_iff, get_set]
  by_cases hb : b = a <;> simp [hb]

@[simp] theorem mem_delete : b ∈ m.delete a ↔ b ∈ m ∧ b ≠ a := by
  rw [mem_iff, mem_iff, get_delete]
  by_cases hb : b = a <;> simp [hb]

@[simp] theorem mem_modify : b ∈ m.modify a f ↔ b ∈ m := by
  rw [mem_iff, mem_iff, get_modify]
  split <;> simp [Option.map_eq_some_iff]

@[simp] theorem size_modify : (m.modify a f).size = m.size := List.length_map _

theorem size_set_le : (m.set a v).size ≤ m.size + 1 := by
  unfold set
  split
  · rw [size_modify]
    exact Nat.le_succ _
  · exact Nat.le_of_eq List.length_append

theorem size_delete_le : (m.delete a).size ≤ m.size := List.length_filter_le _ _

end OrderedMap

end PkgManager.InsertionOrder

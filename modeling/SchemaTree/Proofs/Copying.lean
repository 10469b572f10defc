import SchemaTree.Proofs.HeldTree
import SchemaTree.Proofs.ValueParts
import SchemaTree.Value.Traverse

/-!
Deep copies. A copy has the content of its original, and the parts of a value that can be copied can
be copied themselves.
-/

namespace SchemaTree

theorem bind_eq_ok {ε α β : Type} {x : Except ε α} {f : α → Except ε β} {b : β} :
    x >>= f = .ok b ↔ ∃ a, x = .ok a ∧ f a = .ok b := by
  cases x <;> simp [bind, Except.bind]

theorem bind_eq_error {ε α β : Type} {x : Except ε α} {f : α → Except ε β} {e : ε} :
    x >>= f = .error e ↔ x = .error e ∨ ∃ a, x = .ok a ∧ f a = .error e := by
  cases x <;> simp [bind, Except.bind]

theorem map_eq_ok {ε α β : Type} {x : Except ε α} {f : α → β} {b : β} :
    x.map f = .ok b ↔ ∃ a, x = .ok a ∧ f a = b := by
  cases x <;> simp [Except.map]

theorem map_eq_error {ε α β : Type} {x : Except ε α} {f : α → β} {e : ε} :
    x.map f = .error e ↔ x = .error e := by
  cases x <;> simp [Except.map]

theorem mapError_eq_ok {ε ε' α : Type} {x : Except ε α} {f : ε → ε'} {a : α} :
    x.mapError f = .ok a ↔ x = .ok a := by
  cases x <;> simp [Except.mapError]

theorem mapError_eq_error {ε ε' α : Type} {x : Except ε α} {f : ε → ε'} {e : ε'} :
    x.mapError f = .error e ↔ ∃ e', x = .error e' ∧ f e' = e := by
  cases x <;> simp [Except.mapError]

theorem mapM_eq_ok {α β ε : Type} {f : α → Except ε β} {xs : List α} {ys : List β}
    (h : xs.mapM f = .ok ys) : List.Forall₂ (fun x y => f x = .ok y) xs ys := by
  induction xs generalizing ys with
  | nil =>
      obtain rfl : [] = ys := Except.ok.inj h
      exact .nil
  | cons x xs ih =>
      rw [List.mapM_cons] at h
      obtain ⟨y, hy, h⟩ := bind_eq_ok.mp h
      obtain ⟨ys', hys, h⟩ := bind_eq_ok.mp h
      obtain rfl := Except.ok.inj h
      exact .cons hy (ih hys)

namespace Value

variable {κ ν : Type}

/-- What a value says, whoever holds its containers: all marks are dropped, and of each object a
view is kept. -/
def content (view : κ → ν) (v : Value κ) : Value ν :=
  Id.run (v.traverse (fun _ => pure .fresh) (fun o => pure (view o)))

variable [Inspect κ]

theorem deepCopyAll_cons {x : Value κ} {xs copies : List (Value κ)} :
    deepCopyAll (x :: xs) = .ok copies ↔
      ∃ copy rest, x.deepCopy = .ok copy ∧ deepCopyAll xs = .ok rest ∧ copies = copy :: rest := by
  simp only [deepCopyAll, bind_eq_ok]
  constructor
  · rintro ⟨copy, hx, rest, hxs, h⟩
    exact ⟨copy, rest, hx, hxs, (Except.ok.inj h).symm⟩
  · rintro ⟨copy, rest, hx, hxs, rfl⟩
    exact ⟨copy, hx, rest, hxs, rfl⟩

theorem deepCopyEntries_cons {k v : Value κ} {es copies : Entries κ} :
    deepCopyEntries ((k, v) :: es) = .ok copies ↔
      ∃ value key rest, v.deepCopy = .ok value ∧ k.deepCopy = .ok key ∧
        deepCopyEntries es = .ok rest ∧ copies = (key, value) :: rest := by
  simp only [deepCopyEntries, bind_eq_ok]
  constructor
  · rintro ⟨value, hv, key, hk, rest, hes, h⟩
    exact ⟨value, key, rest, hv, hk, hes, (Except.ok.inj h).symm⟩
  · rintro ⟨value, key, rest, hv, hk, hes, rfl⟩
    exact ⟨value, hv, key, hk, rest, hes, rfl⟩

/-- The copies of objects look like their originals. -/
def KeptByCopies (view : κ → ν) : Prop :=
  ∀ o copy : κ, Inspect.deepCopy o = .ok copy → view copy = view o

mutual

/-- A deep copy has the content of its original, as far as a view tells that the copies of objects
keep. -/
theorem content_deepCopy {view : κ → ν} (hview : KeptByCopies view) (v : Value κ)
    {copy : Value κ} (h : v.deepCopy = .ok copy) :
    copy.content view = v.content view := by
  cases v with
  | list m xs =>
      obtain ⟨copies, hxs, h⟩ := bind_eq_ok.mp h
      obtain rfl := Except.ok.inj h
      have hcontent := content_deepCopyAll hview xs hxs
      simp [content, traverse, hcontent]
  | tuple m xs =>
      obtain ⟨copies, hxs, h⟩ := bind_eq_ok.mp h
      obtain rfl := Except.ok.inj h
      have hcontent := content_deepCopyAll hview xs hxs
      split <;> simp [content, traverse, hcontent]
  | mapping m es =>
      obtain ⟨copies, hes, h⟩ := bind_eq_ok.mp h
      obtain rfl := Except.ok.inj h
      have hcontent := content_deepCopyEntries hview es hes
      simp [content, traverse, hcontent]
  | invalid m name params =>
      obtain ⟨name', hname, h⟩ := bind_eq_ok.mp h
      obtain ⟨params', hparams, h⟩ := bind_eq_ok.mp h
      obtain rfl := Except.ok.inj h
      have hname := content_deepCopy hview name hname
      have hparams := content_deepCopy hview params hparams
      simp_all [content, traverse]
  | object o =>
      obtain ⟨o', ho, h⟩ := bind_eq_ok.mp h
      obtain rfl := Except.ok.inj h
      simp [content, traverse, hview o o' ho]
  | _ => obtain rfl := Except.ok.inj h; rfl

theorem content_deepCopyAll {view : κ → ν} (hview : KeptByCopies view)
    (xs : List (Value κ)) {copies : List (Value κ)} (h : deepCopyAll xs = .ok copies) :
    Id.run (traverseAll (fun _ => pure .fresh) (fun o => pure (view o)) copies) =
      Id.run (traverseAll (fun _ => pure .fresh) (fun o => pure (view o)) xs) := by
  cases xs with
  | nil => obtain rfl := Except.ok.inj h; rfl
  | cons x xs =>
      obtain ⟨copy, rest, hx, hxs, rfl⟩ := deepCopyAll_cons.mp h
      have hcopy := content_deepCopy hview x hx
      have hrest := content_deepCopyAll hview xs hxs
      simp_all [content, traverseAll]

theorem content_deepCopyEntries {view : κ → ν} (hview : KeptByCopies view)
    (es : Entries κ) {copies : Entries κ} (h : deepCopyEntries es = .ok copies) :
    Id.run (traverseEntries (fun _ => pure .fresh) (fun o => pure (view o)) copies) =
      Id.run (traverseEntries (fun _ => pure .fresh) (fun o => pure (view o)) es) := by
  cases es with
  | nil => obtain rfl := Except.ok.inj h; rfl
  | cons e es =>
      obtain ⟨k, v⟩ := e
      obtain ⟨value, key, rest, hv, hk, hes, rfl⟩ := deepCopyEntries_cons.mp h
      have hvalue := content_deepCopy hview v hv
      have hkey := content_deepCopy hview k hk
      have hrest := content_deepCopyEntries hview es hes
      simp_all [content, traverseEntries]

end

theorem deepCopy_strList (m : Mark) (names : List String) :
    (list m (names.map .str) : Value κ).deepCopy = .ok (.list m.copied (names.map .str)) := by
  have hall : deepCopyAll (names.map .str : List (Value κ)) = .ok (names.map .str) := by
    induction names with
    | nil => rfl
    | cons name names ih => exact deepCopyAll_cons.mpr ⟨_, _, rfl, ih, rfl⟩
  rw [deepCopy, hall]
  rfl

def Copyable (v : Value κ) : Prop := ∃ copy, v.deepCopy = .ok copy

theorem copyable_of_mem {x : Value κ} {xs copies : List (Value κ)}
    (hcopies : deepCopyAll xs = .ok copies) (hx : x ∈ xs) : x.Copyable := by
  induction xs generalizing copies with
  | nil => simp at hx
  | cons y ys ih =>
      obtain ⟨copy, rest, hy, hys, -⟩ := deepCopyAll_cons.mp hcopies
      rcases List.mem_cons.mp hx with rfl | hx
      · exact ⟨copy, hy⟩
      · exact ih hys hx

theorem copyable_of_mem_entries {k v : Value κ} {es copies : Entries κ}
    (hcopies : deepCopyEntries es = .ok copies) (h : (k, v) ∈ es) : v.Copyable := by
  induction es generalizing copies with
  | nil => simp at h
  | cons e es ih =>
      obtain ⟨value, key, rest, hv, -, hes, -⟩ := deepCopyEntries_cons.mp hcopies
      rcases List.mem_cons.mp h with rfl | h
      · exact ⟨value, hv⟩
      · exact ih hes h

mutual

/-- Objects are all that can refuse a copy. -/
theorem copyable_of_objects (hobjects : ∀ o : κ, ∃ copy, Inspect.deepCopy o = .ok copy)
    (v : Value κ) : v.Copyable := by
  cases v with
  | list m xs =>
      obtain ⟨copies, hxs⟩ := exists_deepCopyAll hobjects xs
      exact ⟨_, by rw [deepCopy, hxs]; rfl⟩
  | tuple m xs =>
      obtain ⟨copies, hxs⟩ := exists_deepCopyAll hobjects xs
      exact ⟨_, by rw [deepCopy, hxs]; rfl⟩
  | mapping m es =>
      obtain ⟨copies, hes⟩ := exists_deepCopyEntries hobjects es
      exact ⟨_, by rw [deepCopy, hes]; rfl⟩
  | invalid m name params =>
      obtain ⟨name', hname⟩ := copyable_of_objects hobjects name
      obtain ⟨params', hparams⟩ := copyable_of_objects hobjects params
      exact ⟨_, by rw [deepCopy, hname, hparams]; rfl⟩
  | object o =>
      obtain ⟨o', ho⟩ := hobjects o
      exact ⟨_, by rw [deepCopy, ho]; rfl⟩
  | _ => exact ⟨_, rfl⟩

theorem exists_deepCopyAll (hobjects : ∀ o : κ, ∃ copy, Inspect.deepCopy o = .ok copy)
    (xs : List (Value κ)) : ∃ copies, deepCopyAll xs = .ok copies := by
  cases xs with
  | nil => exact ⟨[], rfl⟩
  | cons x xs =>
      obtain ⟨copy, hx⟩ := copyable_of_objects hobjects x
      obtain ⟨rest, hxs⟩ := exists_deepCopyAll hobjects xs
      exact ⟨_, deepCopyAll_cons.mpr ⟨copy, rest, hx, hxs, rfl⟩⟩

theorem exists_deepCopyEntries (hobjects : ∀ o : κ, ∃ copy, Inspect.deepCopy o = .ok copy)
    (es : Entries κ) : ∃ copies, deepCopyEntries es = .ok copies := by
  cases es with
  | nil => exact ⟨[], rfl⟩
  | cons e es =>
      obtain ⟨k, v⟩ := e
      obtain ⟨value, hv⟩ := copyable_of_objects hobjects v
      obtain ⟨key, hk⟩ := copyable_of_objects hobjects k
      obtain ⟨rest, hes⟩ := exists_deepCopyEntries hobjects es
      exact ⟨_, deepCopyEntries_cons.mpr ⟨value, key, rest, hv, hk, hes, rfl⟩⟩

end

theorem copyable_missing : (.missing : Value κ).Copyable := ⟨_, rfl⟩

theorem Copyable.arrayItems {v x : Value κ} (hv : v.Copyable) (hx : x ∈ v.arrayItems) :
    x.Copyable := by
  obtain ⟨copy, hcopy⟩ := hv
  cases v with
  | list m xs | tuple m xs =>
      obtain ⟨copies, hxs, -⟩ := bind_eq_ok.mp hcopy
      exact copyable_of_mem hxs hx
  | _ => simp [Value.arrayItems] at hx

theorem Copyable.under {v : Value κ} (hv : v.Copyable) (name : String) :
    (v.under name).Copyable := by
  rcases v.under_eq name with hnone | ⟨m, es, key, rfl, -, hmem⟩
  · rw [hnone]
    exact copyable_missing
  · obtain ⟨copy, hcopy⟩ := hv
    obtain ⟨copies, hes, -⟩ := bind_eq_ok.mp hcopy
    exact copyable_of_mem_entries hes hmem

theorem snapshot_of_deepCopy {v copy : Value κ} (h : v.deepCopy = .ok copy) :
    v.snapshot = .ok copy := by
  simp [snapshot, firstCopy, h]

end Value

theorem Heap.copyTreeTo_succ_eq_ok {κ : Type} [Inspect κ] {h : Heap κ} {depth : Nat} {n : NodeId}
    {t : Tree κ}
    (ht : h.copyTreeTo (depth + 1) n = .ok t) :
    ∃ ts, List.Forall₂ (fun f g => f.1 = g.1 ∧ h.copyTreeTo depth f.2 = .ok g.2)
        ((h.node n).fields.getD []) ts ∧
      Heap.copyRules (h.node n).rules = .ok t.rules ∧
      t.fields = (h.node n).fields.map fun _ => ts := by
  obtain ⟨ts, hts, ht⟩ := bind_eq_ok.mp ht
  obtain ⟨rules, hrules, ht⟩ := bind_eq_ok.mp ht
  obtain rfl := Except.ok.inj ht
  refine ⟨ts, (mapM_eq_ok hts).imp fun f g hg => ?_, hrules, rfl⟩
  obtain ⟨u, hu, hg⟩ := bind_eq_ok.mp hg
  obtain rfl := Except.ok.inj hg
  exact ⟨rfl, hu⟩

end SchemaTree

import Mathlib.Data.List.Perm.Basic
import SchemaTree.Proofs.CopyFaults

/-!
The order of keys. The mappings in a value may have their entries in another order, at any depth:
the parts that a schema looks at are the same up to order, and so are copies.
-/

namespace SchemaTree

variable {κ : Type}

theorem forall₂_entries_iff {α β γ : Type} {R : β → γ → Prop} {xs : List (α × β)}
    {ys : List (α × γ)} :
    List.Forall₂ (fun x y => y.1 = x.1 ∧ R x.2 y.2) xs ys ↔
      ys.map (·.1) = xs.map (·.1) ∧ List.Forall₂ R (xs.map (·.2)) (ys.map (·.2)) := by
  induction xs generalizing ys with
  | nil => cases ys <;> simp
  | cons x xs ih =>
      cases ys with
      | nil => simp
      | cons y ys =>
          simp only [List.forall₂_cons, ih, List.map_cons, List.cons.injEq]
          tauto

namespace Value

/-- The same value with the entries of mappings in another order. -/
inductive Reordered : Value κ → Value κ → Prop
  | refl (v : Value κ) : Reordered v v
  | list {m : Mark} {xs ys : List (Value κ)} (hitems : List.Forall₂ Reordered xs ys) :
    Reordered (.list m xs) (.list m ys)
  | tuple {m : Mark} {xs ys : List (Value κ)} (hitems : List.Forall₂ Reordered xs ys) :
    Reordered (.tuple m xs) (.tuple m ys)
  | mapping {m : Mark} {es fs gs : Entries κ} (hkeys : fs.map (·.1) = es.map (·.1))
    (hvalues : List.Forall₂ Reordered (es.map (·.2)) (fs.map (·.2))) (horder : fs.Perm gs) :
    Reordered (.mapping m es) (.mapping m gs)
  | invalid {m : Mark} {n n' p p' : Value κ} (hname : Reordered n n')
    (hparams : Reordered p p') : Reordered (.invalid m n p) (.invalid m n' p')

namespace Reordered

variable {v w : Value κ} (h : v.Reordered w)

include h

theorem isMissing_eq : w.isMissing = v.isMissing := by
  cases h <;> rfl

theorem isArray_eq : w.isArray = v.isArray := by
  cases h <;> rfl

theorem isMapping_eq : w.isMapping = v.isMapping := by
  cases h <;> rfl

theorem arrayItems : List.Forall₂ Reordered v.arrayItems w.arrayItems := by
  cases h with
  | refl v => exact List.forall₂_same.mpr fun x _ => .refl x
  | list hitems | tuple hitems => exact hitems
  | _ => exact .nil

theorem keys_perm : v.keys.Perm w.keys := by
  cases h with
  | mapping hkeys hvalues horder =>
      have hperm := horder.map (·.1)
      rwa [hkeys] at hperm
  | _ => exact .refl _

end Reordered

end Value

variable [Inspect κ]

theorem Entries.exists_get? {es : Entries κ} {name : String} {k v : Value κ}
    (hk : k.asText = some name) (h : (k, v) ∈ es) : ∃ w, get? (.str name) es = some w := by
  have hsome : (es.find? fun e => (Value.str name).agrees e.1).isSome = true :=
    List.find?_isSome.mpr ⟨(k, v), h, Value.str_agrees_iff.mpr hk⟩
  obtain ⟨e, he⟩ := Option.isSome_iff_exists.mp hsome
  exact ⟨e.2, by rw [get?, he]; rfl⟩

namespace Value

mutual

/-- In no mapping of the value has a name two values, as in none that was built by setting keys. -/
def KeysUnique : Value κ → Prop
  | .list _ xs | .tuple _ xs => KeysUniqueAll xs
  | .mapping _ es =>
    (∀ name j k v w, j.asText = some name → k.asText = some name → (j, v) ∈ es → (k, w) ∈ es →
      v = w) ∧ KeysUniqueEntries es
  | _ => True

def KeysUniqueAll : List (Value κ) → Prop
  | [] => True
  | x :: xs => x.KeysUnique ∧ KeysUniqueAll xs

def KeysUniqueEntries : Entries κ → Prop
  | [] => True
  | (_, v) :: es => v.KeysUnique ∧ KeysUniqueEntries es

end

theorem keysUnique_of_mem {x : Value κ} {xs : List (Value κ)} (hxs : KeysUniqueAll xs)
    (hx : x ∈ xs) : x.KeysUnique := by
  induction xs with
  | nil => exact nomatch hx
  | cons y ys ih =>
      rcases List.mem_cons.mp hx with rfl | hx
      · exact hxs.1
      · exact ih hxs.2 hx

theorem keysUnique_of_mem_entries {k v : Value κ} {es : Entries κ} (hes : KeysUniqueEntries es)
    (h : (k, v) ∈ es) : v.KeysUnique := by
  induction es with
  | nil => exact nomatch h
  | cons e es ih =>
      rcases List.mem_cons.mp h with rfl | h
      · exact hes.1
      · exact ih hes.2 h

theorem KeysUnique.arrayItems {v x : Value κ} (hv : v.KeysUnique) (hx : x ∈ v.arrayItems) :
    x.KeysUnique := by
  cases v with
  | list m xs | tuple m xs => exact keysUnique_of_mem hv hx
  | _ => exact nomatch hx

theorem KeysUnique.under {v : Value κ} (hv : v.KeysUnique) (name : String) :
    (v.under name).KeysUnique := by
  rcases v.under_eq name with hnone | ⟨m, es, key, rfl, -, hmem⟩
  · rw [hnone]
    trivial
  · exact keysUnique_of_mem_entries hv.2 hmem

/-- Each name has the same value under it, up to the order of keys. -/
theorem Reordered.under {v w : Value κ} (h : v.Reordered w) (hv : v.KeysUnique) (name : String) :
    (v.under name).Reordered (w.under name) := by
  cases h with
  | refl v => exact .refl _
  | @mapping m es fs gs hkeys hvalues horder =>
      have hall := forall₂_entries_iff.mpr ⟨hkeys, hvalues⟩
      simp only [Value.under]
      cases hgs : Entries.get? (.str name) gs with
      | some y =>
          obtain ⟨k, hk, hy⟩ := Entries.exists_key_of_get? hgs
          obtain ⟨⟨k', x⟩, hx, hsame, hxy⟩ := exists_left_of_mem hall (horder.mem_iff.mpr hy)
          obtain rfl : k = k' := hsame
          obtain ⟨x', hx'⟩ := Entries.exists_get? hk hx
          obtain ⟨j, hj, hmem⟩ := Entries.exists_key_of_get? hx'
          obtain rfl := hv.1 name j k x' x hj hk hmem hx
          rw [hx']
          exact hxy
      | none =>
          cases hes : Entries.get? (.str name) es with
          | none => exact .refl _
          | some x =>
              obtain ⟨k, hk, hx⟩ := Entries.exists_key_of_get? hes
              obtain ⟨⟨k', y⟩, hy, hsame, -⟩ := exists_right_of_mem hall hx
              obtain rfl : k' = k := hsame
              obtain ⟨y', hy'⟩ := Entries.exists_get? hk (horder.mem_iff.mp hy)
              cases hgs.symm.trans hy'
  | _ => exact .refl _

theorem deepCopyEntries_iff {es copies : Entries κ} :
    deepCopyEntries es = .ok copies ↔
      List.Forall₂ (fun e copy => e.2.deepCopy = .ok copy.2 ∧ e.1.deepCopy = .ok copy.1)
        es copies := by
  induction es generalizing copies with
  | nil => simp [deepCopyEntries, pure, Except.pure, eq_comm]
  | cons e es ih =>
      obtain ⟨k, v⟩ := e
      rw [deepCopyEntries_cons, List.forall₂_cons_left_iff]
      simp only [ih, Prod.exists]
      tauto

mutual

theorem Reordered.isFixed_eq (v : Value κ) {w : Value κ} (h : v.Reordered w) :
    w.isFixed = v.isFixed := by
  cases v with
  | tuple m xs =>
      cases h with
      | refl => rfl
      | tuple hitems => exact allFixed_reordered xs hitems
  | _ => cases h <;> rfl

theorem allFixed_reordered (xs : List (Value κ)) {ys : List (Value κ)}
    (h : List.Forall₂ Reordered xs ys) : allFixed ys = allFixed xs := by
  cases h with
  | nil => rfl
  | @cons x y xs ys hxy hall =>
      rw [allFixed, allFixed, hxy.isFixed_eq x, allFixed_reordered xs hall]

end

mutual

/-- Where a value can be copied it can be copied in another order, and the copies differ in their
order only. -/
theorem Reordered.deepCopy (v : Value κ) {w copy : Value κ} (h : v.Reordered w)
    (hcopy : v.deepCopy = .ok copy) : ∃ copy', w.deepCopy = .ok copy' ∧ copy.Reordered copy' := by
  cases v with
  | list m xs =>
      cases h with
      | refl => exact ⟨copy, hcopy, .refl copy⟩
      | list hitems =>
          obtain ⟨copies, hxs, hcopy⟩ := bind_eq_ok.mp hcopy
          obtain rfl := Except.ok.inj hcopy
          obtain ⟨copies', hys, hall⟩ := exists_deepCopyAll_reordered xs hitems hxs
          exact ⟨_, by rw [Value.deepCopy, hys]; rfl, .list hall⟩
  | tuple m xs =>
      cases h with
      | refl => exact ⟨copy, hcopy, .refl copy⟩
      | @tuple _ _ ys hitems =>
          obtain ⟨copies, hxs, hcopy⟩ := bind_eq_ok.mp hcopy
          obtain rfl := Except.ok.inj hcopy
          obtain ⟨copies', hys, hall⟩ := exists_deepCopyAll_reordered xs hitems hxs
          refine ⟨_, by rw [Value.deepCopy, hys]; rfl, ?_⟩
          rw [allFixed_reordered xs hitems]
          split
          · exact .tuple hitems
          · exact .tuple hall
  | mapping m es =>
      cases h with
      | refl => exact ⟨copy, hcopy, .refl copy⟩
      | @mapping _ _ fs gs hkeys hvalues horder =>
          obtain ⟨copies, hes, hcopy⟩ := bind_eq_ok.mp hcopy
          obtain rfl := Except.ok.inj hcopy
          obtain ⟨copies', hfs, hall⟩ := exists_deepCopyEntries_reordered es
            (forall₂_entries_iff.mpr ⟨hkeys, hvalues⟩) hes
          obtain ⟨copies'', hgs, hperm⟩ :=
            List.perm_comp_forall₂ horder.symm (deepCopyEntries_iff.mp hfs)
          obtain ⟨hkeys', hvalues'⟩ := forall₂_entries_iff.mp hall
          exact ⟨_, by rw [Value.deepCopy, deepCopyEntries_iff.mpr hgs]; rfl,
            .mapping hkeys' hvalues' hperm.symm⟩
  | invalid m n p =>
      cases h with
      | refl => exact ⟨copy, hcopy, .refl copy⟩
      | invalid hname hparams =>
          obtain ⟨name, hn, hcopy⟩ := bind_eq_ok.mp hcopy
          obtain ⟨params, hp, hcopy⟩ := bind_eq_ok.mp hcopy
          obtain rfl := Except.ok.inj hcopy
          obtain ⟨name', hn', hname'⟩ := hname.deepCopy n hn
          obtain ⟨params', hp', hparams'⟩ := hparams.deepCopy p hp
          exact ⟨_, by rw [Value.deepCopy, hn', hp']; rfl, .invalid hname' hparams'⟩
  | _ =>
      cases h
      exact ⟨copy, hcopy, .refl copy⟩
termination_by structural v

theorem exists_deepCopyAll_reordered (xs : List (Value κ)) {ys copies : List (Value κ)}
    (h : List.Forall₂ Reordered xs ys) (hcopies : deepCopyAll xs = .ok copies) :
    ∃ copies', deepCopyAll ys = .ok copies' ∧ List.Forall₂ Reordered copies copies' := by
  cases xs with
  | nil =>
      cases h
      exact ⟨copies, hcopies, List.forall₂_same.mpr fun x _ => .refl x⟩
  | cons x xs =>
      obtain ⟨y, ys, hxy, hall, rfl⟩ := List.forall₂_cons_left_iff.mp h
      obtain ⟨copy, rest, hx, hxs, rfl⟩ := deepCopyAll_cons.mp hcopies
      obtain ⟨copy', hy, hcopy⟩ := hxy.deepCopy x hx
      obtain ⟨rest', hys, hrest⟩ := exists_deepCopyAll_reordered xs hall hxs
      exact ⟨_, deepCopyAll_cons.mpr ⟨copy', rest', hy, hys, rfl⟩, .cons hcopy hrest⟩
termination_by structural xs

theorem exists_deepCopyEntries_reordered (es : Entries κ) {fs copies : Entries κ}
    (h : List.Forall₂ (fun e f => f.1 = e.1 ∧ e.2.Reordered f.2) es fs)
    (hcopies : deepCopyEntries es = .ok copies) :
    ∃ copies', deepCopyEntries fs = .ok copies' ∧
      List.Forall₂ (fun e f => f.1 = e.1 ∧ e.2.Reordered f.2) copies copies' := by
  cases es with
  | nil =>
      cases h
      obtain rfl := Except.ok.inj hcopies
      exact ⟨[], rfl, .nil⟩
  | cons e es =>
      obtain ⟨f, fs, ⟨hkey, hvalue⟩, hall, rfl⟩ := List.forall₂_cons_left_iff.mp h
      obtain ⟨k, v⟩ := e
      obtain ⟨k', w⟩ := f
      obtain rfl : k' = k := hkey
      obtain ⟨copy, key, rest, hv, hk, hes, rfl⟩ := deepCopyEntries_cons.mp hcopies
      obtain ⟨copy', hw, hcopy⟩ := Reordered.deepCopy v hvalue hv
      obtain ⟨rest', hfs, hrest⟩ := exists_deepCopyEntries_reordered es hall hes
      exact ⟨_, deepCopyEntries_cons.mpr ⟨copy', key, rest', hw, hk, hfs, rfl⟩,
        .cons ⟨rfl, hcopy⟩ hrest⟩
termination_by structural es

end

end Value

end SchemaTree

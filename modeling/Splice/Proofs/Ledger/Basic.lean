import Splice.Ledger.Record
import Mathlib.Tactic

/-!
# How the records of a ledger change

Every operation on a ledger changes one record or one scope, or adds one at the
end.  The lemmas below say for each of them what a look-up gives afterwards; the
modules that follow use these equations and never open the arrays again.
-/

namespace Splice.Ledger

variable {l : Ledger} {u v : UsageId} {f g : ForeignId} {s t : ScopeId}

theorem usage_modifyUsage (l : Ledger) (u v : UsageId) (change : Usage → Usage) :
    (l.modifyUsage u change).usage v =
      if u = v ∧ v < l.usages.size then change (l.usage v) else l.usage v := by
  simp only [usage, modifyUsage, Array.getD_eq_getD_getElem?, Array.getElem?_modify]
  by_cases huv : u = v
  · by_cases hv : v < l.usages.size
    · simp [huv, hv]
    · simp [huv, hv]
  · simp [huv]

theorem foreignUsage_modifyForeign (l : Ledger) (f g : ForeignId)
    (change : ForeignUsage → ForeignUsage) :
    (l.modifyForeign f change).foreignUsage g =
      if f = g ∧ g < l.foreign.size then change (l.foreignUsage g) else l.foreignUsage g := by
  simp only [foreignUsage, modifyForeign, Array.getD_eq_getD_getElem?,
    Array.getElem?_modify]
  by_cases hfg : f = g
  · by_cases hg : g < l.foreign.size
    · simp [hfg, hg]
    · simp [hfg, hg]
  · simp [hfg]

theorem foreignUsage_modifyForeign_of_lt {l : Ledger} {f : ForeignId} (hf : f < l.foreign.size)
    (change : ForeignUsage → ForeignUsage) (g : ForeignId) :
    (l.modifyForeign f change).foreignUsage g =
      if f = g then change (l.foreignUsage g) else l.foreignUsage g := by
  rw [foreignUsage_modifyForeign]
  by_cases hfg : f = g
  · rw [if_pos ⟨hfg, hfg ▸ hf⟩, if_pos hfg]
  · rw [if_neg (fun hc => hfg hc.1), if_neg hfg]

theorem scope_modifyScope (l : Ledger) (s t : ScopeId) (change : Scope → Scope) :
    (l.modifyScope s change).scope t =
      if s = t ∧ t < l.scopes.size then change (l.scope t) else l.scope t := by
  simp only [scope, modifyScope, Array.getD_eq_getD_getElem?, Array.getElem?_modify]
  by_cases hst : s = t
  · by_cases ht : t < l.scopes.size
    · simp [hst, ht]
    · simp [hst, ht]
  · simp [hst]

@[simp] theorem usage_modifyForeign (change : ForeignUsage → ForeignUsage) :
    (l.modifyForeign f change).usage u = l.usage u := rfl

@[simp] theorem usage_modifyScope (change : Scope → Scope) :
    (l.modifyScope s change).usage u = l.usage u := rfl

@[simp] theorem foreignUsage_modifyUsage (change : Usage → Usage) :
    (l.modifyUsage u change).foreignUsage f = l.foreignUsage f := rfl

@[simp] theorem foreignUsage_modifyScope (change : Scope → Scope) :
    (l.modifyScope s change).foreignUsage f = l.foreignUsage f := rfl

@[simp] theorem scope_modifyUsage (change : Usage → Usage) :
    (l.modifyUsage u change).scope s = l.scope s := rfl

@[simp] theorem scope_modifyForeign (change : ForeignUsage → ForeignUsage) :
    (l.modifyForeign f change).scope s = l.scope s := rfl

@[simp] theorem size_modifyUsage (change : Usage → Usage) :
    (l.modifyUsage u change).usages.size = l.usages.size := by
  simp [modifyUsage]

@[simp] theorem size_modifyForeign (change : ForeignUsage → ForeignUsage) :
    (l.modifyForeign f change).foreign.size = l.foreign.size := by
  simp [modifyForeign]

@[simp] theorem size_modifyScope (change : Scope → Scope) :
    (l.modifyScope s change).scopes.size = l.scopes.size := by
  simp [modifyScope]

@[simp] theorem scopes_modifyUsage (change : Usage → Usage) :
    (l.modifyUsage u change).scopes = l.scopes := rfl

@[simp] theorem scopes_modifyForeign (change : ForeignUsage → ForeignUsage) :
    (l.modifyForeign f change).scopes = l.scopes := rfl

@[simp] theorem usages_modifyForeign (change : ForeignUsage → ForeignUsage) :
    (l.modifyForeign f change).usages = l.usages := rfl

@[simp] theorem usages_modifyScope (change : Scope → Scope) :
    (l.modifyScope s change).usages = l.usages := rfl

@[simp] theorem foreign_modifyUsage (change : Usage → Usage) :
    (l.modifyUsage u change).foreign = l.foreign := rfl

@[simp] theorem foreign_modifyScope (change : Scope → Scope) :
    (l.modifyScope s change).foreign = l.foreign := rfl

theorem usage_push (l : Ledger) (new : Usage) (v : UsageId) :
    usage { l with usages := l.usages.push new } v =
      if v = l.usages.size then new else l.usage v := by
  simp only [usage, Array.getD_eq_getD_getElem?, Array.getElem?_push]
  split <;> simp

theorem foreignUsage_push (l : Ledger) (new : ForeignUsage) (g : ForeignId) :
    foreignUsage { l with foreign := l.foreign.push new } g =
      if g = l.foreign.size then new else l.foreignUsage g := by
  simp only [foreignUsage, Array.getD_eq_getD_getElem?, Array.getElem?_push]
  split <;> simp

theorem scope_push (l : Ledger) (new : Scope) (t : ScopeId) :
    scope { l with scopes := l.scopes.push new } t =
      if t = l.scopes.size then new else l.scope t := by
  simp only [scope, Array.getD_eq_getD_getElem?, Array.getElem?_push]
  split <;> simp

theorem usage_of_size_le (h : l.usages.size ≤ u) : l.usage u = { id := [] } := by
  simp [usage, h]

theorem foreignUsage_of_size_le (h : l.foreign.size ≤ f) :
    l.foreignUsage f = { qualifier := [], name := [] } := by
  simp [foreignUsage, h]

theorem scope_of_size_le (h : l.scopes.size ≤ s) : l.scope s = {} := by
  simp [scope, h]

end Splice.Ledger

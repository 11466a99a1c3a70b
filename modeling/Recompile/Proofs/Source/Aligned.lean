import Mathlib.Logic.Relator
import Recompile.Proofs.Source.Registry

/-!
Identities of two registries that stand for the same paths. Handing out further identities on either
side leaves them together.
-/

namespace Recompile.Registry

def Aligned (r r' : Registry) (i j : FileId) : Prop :=
  ∃ p q, r.path? i = some p ∧ r'.path? j = some q ∧ p.components = q.components

variable {r r' s s' : Registry} {i j : FileId} {p q : Path}

theorem aligned_of_lookup? (h : r.lookup? p = some i) (h' : r'.lookup? q = some j)
    (hpq : p.components = q.components) : Aligned r r' i j := by
  obtain ⟨a, ha, hpa⟩ := path?_of_lookup? h
  obtain ⟨b, hb, hqb⟩ := path?_of_lookup? h'
  exact ⟨a, b, ha, hb, by rw [hpa, hpq, hqb]⟩

namespace Aligned

theorem mono (h : Aligned r r' i j) (hw : r.Within s) (hw' : r'.Within s') : Aligned s s' i j := by
  obtain ⟨a, b, ha, hb, hab⟩ := h
  exact ⟨a, b, hw.path? ha, hw'.path? hb, hab⟩

theorem symm (h : Aligned r r' i j) : Aligned r' r j i := by
  obtain ⟨a, b, ha, hb, hab⟩ := h
  exact ⟨b, a, hb, ha, hab.symm⟩

theorem lookup? (h : Aligned r r' i j) (hr' : r'.Distinct) (hp : r.lookup? p = some i) :
    r'.lookup? p = some j := by
  obtain ⟨a, b, ha, hb, hab⟩ := h
  obtain ⟨a', ha', hpa⟩ := path?_of_lookup? hp
  obtain rfl := Option.some.inj (ha.symm.trans ha')
  rw [lookup?_congr r' (hpa.symm.trans hab)]
  exact hr'.lookup?_of_path? hb

end Aligned

theorem biUnique_aligned (hr : r.Distinct) (hr' : r'.Distinct) : Relator.BiUnique (Aligned r r') := by
  have hright : ∀ {r r' : Registry}, r'.Distinct → Relator.RightUnique (Aligned r r') := by
    intro r r' hr' i j k hj hk
    obtain ⟨a, b, ha, hb, hab⟩ := hj
    obtain ⟨a', c, ha', hc, hac⟩ := hk
    obtain rfl := Option.some.inj (ha.symm.trans ha')
    have hlookup := hr'.lookup?_of_path? hb
    rw [lookup?_congr r' (hab.symm.trans hac), hr'.lookup?_of_path? hc] at hlookup
    exact (Option.some.inj hlookup).symm
  exact ⟨fun i j k hi hj => hright hr hi.symm hj.symm, hright hr'⟩

end Recompile.Registry

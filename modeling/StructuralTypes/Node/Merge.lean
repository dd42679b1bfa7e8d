import StructuralTypes.Node

/-! Properties of two shapes taken together. A key that both declare has both types,
and may be absent only if both allow it. -/

namespace StructuralTypes.Property

/-- The property that declares a key. -/
def find? (key : String) (properties : List Property) : Option Property :=
  properties.find? (·.key == key)

/-- One property in place of two with the same key. -/
def meet (p q : Property) : Property :=
  .mk p.key (.intersection [p.value, q.value]) (p.optional && q.optional)

/-- The properties of the first list, each with its counterpart in the second, and
what only the second declares. -/
def merge (ps qs : List Property) : List Property :=
  ps.map (fun p => ((find? p.key qs).map p.meet).getD p)
    ++ qs.filter fun q => (find? q.key ps).isNone

@[simp] theorem key_meet (p q : Property) : (p.meet q).key = p.key := rfl

theorem map_key_merge (ps qs : List Property) :
    (merge ps qs).map key
      = ps.map key ++ (qs.filter fun q => (find? q.key ps).isNone).map key := by
  simp only [merge, List.map_append, List.map_map, List.append_cancel_right_eq]
  refine List.map_congr_left fun p _ => ?_
  simp only [Function.comp]
  cases find? p.key qs <;> simp

end StructuralTypes.Property

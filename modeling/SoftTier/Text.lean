/-!
# Texts in order

Texts are ordered by their code points, the first that differs deciding, and a text comes after
every beginning of it.
-/

namespace SoftTier

/-- Texts in order, repeats kept. -/
def sortTexts (l : List String) : List String := l.mergeSort fun a b => !decide (b < a)

/-- Nothing is lost and nothing is added. -/
theorem sortTexts_perm (l : List String) : (sortTexts l).Perm l := List.mergeSort_perm l _

end SoftTier

import ParLib.Foundations.LittleEndian

/-!
# Network ids

An id is a byte string, compared byte by byte. The empty string stands for
"no id" wherever the code calls `empty()` on an id.
-/

namespace ParLib

set_option autoImplicit false

abbrev NetworkId := List (Fin 256)

instance (id : NetworkId) (ids : List NetworkId) : Decidable (id ∈ ids) := inferInstance

/-- The ids "A", "B" and "C" of the nodes in examples. -/
def idA : NetworkId := [65]

def idB : NetworkId := [66]

def idC : NetworkId := [67]

end ParLib

import Ciabatta.Lib.Exec

/-!
The calls that leave the part of the code that a model is about: to a memory
allocator that the client supplies, and to the loader's own `printf`.
-/

namespace Ciabatta

open ByteMemory

inductive Call
  | allocator (optype : BitVec 32) (oldPtr oldSize size alignment result : Word)
  | printf (fmt : String) (args : List Word)
  deriving DecidableEq

end Ciabatta

import Ciabatta.World

/-!
The relocation code of the loader, which stands twice in the source: in
`ld_stage1_entry` (`loader-self-reloc.c`), where the loader relocates itself, and
in `ld_stage2_entry` (`loader.c`), where it relocates the application. Both start
from the decoded dynamic table. What only the debug prints need is compiled out
and left out here. Each `while` loop gets `fuel` rounds.
-/

namespace Ciabatta.Loader

open ByteMemory Exec

/-- `u64 dyn[DYN_CNT]`. -/
abbrev DynTable := Fin 37 → Word

def dtPltrelsz : Fin 37 := 2
def dtPltgot : Fin 37 := 3
def dtSymtab : Fin 37 := 6
def dtRela : Fin 37 := 7
def dtRelasz : Fin 37 := 8
def dtRelaent : Fin 37 := 9
def dtRel : Fin 37 := 17
def dtRelsz : Fin 37 := 18
def dtRelent : Fin 37 := 19
def dtPltrel : Fin 37 := 20
def dtJmprel : Fin 37 := 23

def rX8664GlobDat : BitVec 32 := 6
def rX8664JumpSlot : BitVec 32 := 7
def rX8664Relative : BitVec 32 := 8

def elf64RSym (i : Word) : Word := i >>> 32

def elf64RType (i : Word) : Word := i &&& 0xffffffff

def sizeofElf64Rela : Word := 24

/-- `&symtab[i]`, an array of `Elf64_Sym`. -/
def symtabEntry (symtab i : Word) : Word := symtab + i * 24

/-- The member of `Elf64_Sym`, by its address. -/
def stValue (sym : Word) : Word := sym + 8

/-- The members of `Elf64_Rela`, and of `Elf64_Rel` as far as it has them. -/
def rOffset (rela : Word) : Word := rela
def rInfo (rela : Word) : Word := rela + 8
def rAddend (rela : Word) : Word := rela + 16

def sysExit {α : Type} (code : BitVec 32) : Exec Call α :=
  throw (.exit code)

def printf (fmt : String) (args : List Word) : Exec Call Unit :=
  call (.printf fmt args)

def elfAddr (base off : Word) : Word := base + off

/-! ### `ld_stage1_entry` -/

namespace Stage1

def relRound (relEnts relSize relEnt relOffs : Word) : Exec Call (Word ⊕ Unit) :=
  if relOffs < relSize then do
    let rel := relEnts + relOffs
    let _offs ← loadWord (rOffset rel)
    let _sym ← loadWord (rInfo rel)
    let _type ← loadWord (rInfo rel)
    return .inl (relOffs + relEnt)
  else
    return .inr ()

def rel (fuel : ℕ) (base : Word) (dyn : DynTable) : Exec Call Unit :=
  if dyn dtRel ≠ 0 then
    loop (relRound (base + dyn dtRel) (dyn dtRelsz) (dyn dtRelent)) fuel 0
  else
    pure ()

def relaRound (base symtab relaEnts relaSize relaEnt relaOffs : Word) :
    Exec Call (Word ⊕ Unit) :=
  if relaOffs < relaSize then do
    let rela := relaEnts + relaOffs
    let relocOffs ← loadWord (rOffset rela)
    let addend ← loadWord (rAddend rela)
    let symInfo ← loadWord (rInfo rela)
    let sym := symtabEntry symtab (elf64RSym symInfo)
    let typeInfo ← loadWord (rInfo rela)
    let type := (elf64RType typeInfo).setWidth 32
    let value ← loadWord (stValue sym)
    let symAddr := base + value
    let relocAddr := base + relocOffs
    (if type = rX8664GlobDat then
      storeWord relocAddr symAddr
    else if type = rX8664Relative then
      storeWord relocAddr (base + addend)
    else do
      printf "ERROR: unhandled relocation type: %d\n" [type.setWidth 64]
      sysExit 1)
    return .inl (relaOffs + relaEnt)
  else
    return .inr ()

def rela (fuel : ℕ) (base : Word) (dyn : DynTable) : Exec Call Unit :=
  if dyn dtRela ≠ 0 then
    loop (relaRound base (base + dyn dtSymtab) (base + dyn dtRela) (dyn dtRelasz)
      (dyn dtRelaent)) fuel 0
  else
    pure ()

def pltRound (base symtab relaPlt relaSize relaOffs : Word) : Exec Call (Word ⊕ Unit) :=
  if relaOffs < relaSize then do
    let rela := relaPlt + relaOffs
    let relocOffs ← loadWord (rOffset rela)
    let _addend ← loadWord (rAddend rela)
    let symInfo ← loadWord (rInfo rela)
    let symIdx : BitVec 32 := (elf64RSym symInfo).setWidth 32
    let typeInfo ← loadWord (rInfo rela)
    let type := (elf64RType typeInfo).setWidth 32
    (if type = rX8664JumpSlot then do
      let value ← loadWord (stValue (symtabEntry symtab (symIdx.setWidth 64)))
      let symAddr := base + value
      let relocAddr := base + relocOffs
      storeWord relocAddr symAddr
    else
      pure ())
    return .inl (relaOffs + sizeofElf64Rela)
  else
    return .inr ()

def plt (fuel : ℕ) (base : Word) (dyn : DynTable) : Exec Call Unit :=
  if dyn dtPltgot ≠ 0 then do
    (if dyn dtPltrel = 17 then do
      printf "ERROR: .plt relocations of type REL not implemented\n" []
      sysExit 1
    else
      pure ())
    loop (pltRound base (base + dyn dtSymtab) (base + dyn dtJmprel) (dyn dtPltrelsz)) fuel 0
  else
    pure ()

end Stage1

def ldStage1Relocate (fuel : ℕ) (base : Word) (dyn : DynTable) : Exec Call Unit := do
  Stage1.rel fuel base dyn
  Stage1.rela fuel base dyn
  Stage1.plt fuel base dyn

/-! ### `ld_stage2_entry` -/

namespace Stage2

/-- Here the first round ends the loader. -/
def relRound (relEnts relSize relOffs : Word) : Exec Call (Word ⊕ Unit) :=
  if relOffs < relSize then do
    let rel := relEnts + relOffs
    let _offs ← loadWord (rOffset rel)
    let _sym ← loadWord (rInfo rel)
    let _type ← loadWord (rInfo rel)
    sysExit 0
  else
    return .inr ()

def rel (fuel : ℕ) (base : Word) (dyn : DynTable) : Exec Call Unit :=
  if dyn dtRel ≠ 0 then do
    printf "REL Relocations found. This part isn't implemented\n" []
    loop (relRound (elfAddr base (dyn dtRel)) (dyn dtRelsz)) fuel 0
  else
    pure ()

def relaRound (base symtab relaEnts relaSize relaEnt relaOffs : Word) :
    Exec Call (Word ⊕ Unit) :=
  if relaOffs < relaSize then do
    let rela := relaEnts + relaOffs
    let relocOffs ← loadWord (rOffset rela)
    let addend ← loadWord (rAddend rela)
    let typeInfo ← loadWord (rInfo rela)
    let type := (elf64RType typeInfo).setWidth 32
    let symInfo ← loadWord (rInfo rela)
    let sym := symtabEntry symtab (elf64RSym symInfo)
    let value ← loadWord (stValue sym)
    let symAddr := elfAddr base value
    let relocAddr := elfAddr base relocOffs
    (if type = rX8664GlobDat then
      storeWord relocAddr symAddr
    else if type = rX8664Relative then
      storeWord relocAddr (elfAddr base addend)
    else do
      printf "ERROR: unhandled relocation type: %d\n" [type.setWidth 64]
      sysExit 1)
    return .inl (relaOffs + relaEnt)
  else
    return .inr ()

def rela (fuel : ℕ) (base : Word) (dyn : DynTable) : Exec Call Unit :=
  if dyn dtRela ≠ 0 then
    loop (relaRound base (elfAddr base (dyn dtSymtab)) (elfAddr base (dyn dtRela))
      (dyn dtRelasz) (dyn dtRelaent)) fuel 0
  else
    pure ()

def pltRound (base symtab relaPlt relaSize relaOffs : Word) : Exec Call (Word ⊕ Unit) :=
  if relaOffs < relaSize then do
    let rela := relaPlt + relaOffs
    let relocOffs ← loadWord (rOffset rela)
    let _addend ← loadWord (rAddend rela)
    let symInfo ← loadWord (rInfo rela)
    let symIdx : BitVec 32 := (elf64RSym symInfo).setWidth 32
    let typeInfo ← loadWord (rInfo rela)
    let type := (elf64RType typeInfo).setWidth 32
    (if type = rX8664JumpSlot then do
      let value ← loadWord (stValue (symtabEntry symtab (symIdx.setWidth 64)))
      let symAddr := elfAddr base value
      let relocAddr := elfAddr base relocOffs
      storeWord relocAddr symAddr
    else
      pure ())
    return .inl (relaOffs + sizeofElf64Rela)
  else
    return .inr ()

def plt (fuel : ℕ) (base : Word) (dyn : DynTable) : Exec Call Unit :=
  if dyn dtPltgot ≠ 0 then do
    (if dyn dtPltrel = 17 then do
      printf "ERROR: .plt relocations of type REL not implemented\n" []
      sysExit 1
    else
      pure ())
    loop (pltRound base (elfAddr base (dyn dtSymtab)) (elfAddr base (dyn dtJmprel))
      (dyn dtPltrelsz)) fuel 0
  else
    pure ()

end Stage2

def ldStage2Relocate (fuel : ℕ) (base : Word) (dyn : DynTable) : Exec Call Unit := do
  Stage2.rel fuel base dyn
  Stage2.rela fuel base dyn
  Stage2.plt fuel base dyn

end Ciabatta.Loader

import SmpNostd.Boot.Trampoline

/-!
The trampoline page as `install` leaves it.

Four things are written into the page, one after the other: zeros everywhere, the
code at its beginning, the GDT descriptor at offset 0x80 and the GDT at 0x88. The
offsets leave 128 bytes for the code, which has 154. So what is copied last
overwrites the end of the code, from the middle of the signal on.
-/

namespace SmpNostd.Trampoline

open Memory

/-- The size of a page. -/
def pageSize : ℕ := 4096

/-- The arguments of `set_ap_data`. -/
structure ApData where
  pml4Addr : BitVec 64
  stackTop : BitVec 64
  entryPoint : BitVec 64
  cpuIndex : BitVec 32
  deriving DecidableEq, Repr

/-- Calls of `set_ap_data`, one after the other. -/
def setApDatas (mem : Mem) (datas : List ApData) : Mem :=
  datas.foldl (fun mem data =>
    setApData mem data.pml4Addr data.stackTop data.entryPoint data.cpuIndex) mem

/-- The bytes that are copied to fixed offsets of the page, by their offsets. -/
def images : List (ℕ × List Byte) :=
  [(0, trampolineCode), (0x80, trampolineGdtDesc), (0x88, trampolineGdt)]

/-- The regions of the page, each by its offset and its length. The last one is
`TrampolineData`. -/
def regions : List (ℕ × ℕ) :=
  images.map (fun image => (image.1, image.2.length)) ++
    [(trampolineDataOffset, Field.gdtBase.offset + Field.gdtBase.size)]

/-- The bytes are where they have been copied to. -/
def Intact (mem : Mem) (image : ℕ × List Byte) : Prop :=
  Holds mem (trampolinePhys + image.1) image.2

/-- What `install` is to leave. -/
structure Complete (mem : Mem) : Prop where
  intact : ∀ image ∈ images, Intact mem image
  data : ∀ k, trampolineDataOffset ≤ k → k < pageSize → mem (trampolinePhys + k) = 0
  later : ∀ datas, ∀ image ∈ images, Intact (setApDatas mem datas) image
  disjoint : regions.Pairwise fun r r' => r.1 + r.2 ≤ r'.1 ∨ r'.1 + r'.2 ≤ r.1
  inside : ∀ r ∈ regions, r.1 + r.2 ≤ pageSize

/-! ### What is where -/

section

variable (mem : Mem)

theorem install_code {k : ℕ} (hk : k < 0x80) : install mem (trampolinePhys + k) = codeByte k := by
  simp only [install, copy]
  rw [overlay_outside (.inl (by omega)), overlay_outside (.inl (by omega))]
  exact overlay_inside (by rw [length_trampolineCode]; omega)

theorem install_gdtDesc : Holds (install mem) (trampolinePhys + 0x80) trampolineGdtDesc := by
  intro k hk
  have hlt : k < 6 := hk
  rw [install, copy, overlay_outside (.inl (by omega))]
  exact holds_copy _ _ _ k hk

theorem install_gdt : Holds (install mem) (trampolinePhys + 0x88) trampolineGdt :=
  holds_copy _ _ _

theorem install_data {k : ℕ} (hdata : trampolineDataOffset ≤ k) (hk : k < pageSize) :
    install mem (trampolinePhys + k) = 0 := by
  have hcode : trampolineCode.length = 154 := length_trampolineCode
  have hdesc : trampolineGdtDesc.length = 6 := rfl
  have hgdt : trampolineGdt.length = 40 := rfl
  unfold trampolineDataOffset at hdata
  simp only [install, copy, fill]
  rw [overlay_outside (.inr (by omega)), overlay_outside (.inr (by omega)),
    overlay_outside (.inr (by omega))]
  exact overlay_inside hk

/-- What is below the mailbox stays as it is. -/
theorem setApDatas_of_lt {x : ℕ} (h : x < trampolineDataPhys) (datas : List ApData) :
    setApDatas mem datas x = mem x := by
  induction datas generalizing mem with
  | nil => rfl
  | cons data datas ih =>
      rw [setApDatas, List.foldl_cons, ← setApDatas, ih]
      exact setApData_of_lt _ _ _ _ _ h

end

/-- The descriptor is written over the middle of an instruction. -/
theorem install_at_gdtDesc (mem : Mem) : install mem (trampolinePhys + 0x80) = 0x27 :=
  install_gdtDesc mem 0 (by decide)

theorem not_intact_code (mem : Mem) : ¬Intact (install mem) (0, trampolineCode) := by
  intro h
  have hlt : 0x80 < trampolineCode.length := by
    rw [length_trampolineCode]
    omega
  have hcode : install mem (trampolinePhys + 0x80) = codeByte 0x80 := h 0x80 hlt
  rw [install_at_gdtDesc] at hcode
  exact absurd hcode (by decide)

/-- **The page is never complete**, whatever was in it before: the end of the code
has been overwritten. Everything else is there, and stays whatever `set_ap_data`
is called with. -/
theorem never_complete (mem : Mem) :
    ¬Complete (install mem) ∧ ¬Intact (install mem) (0, trampolineCode) ∧
    (∀ datas, (∀ k < 0x80, setApDatas (install mem) datas (trampolinePhys + k) = codeByte k) ∧
      Intact (setApDatas (install mem) datas) (0x80, trampolineGdtDesc) ∧
      Intact (setApDatas (install mem) datas) (0x88, trampolineGdt)) ∧
    (∀ k, trampolineDataOffset ≤ k → k < pageSize → install mem (trampolinePhys + k) = 0) := by
  have hcode := not_intact_code mem
  have hbelow : ∀ datas, ∀ k < 0x100, setApDatas (install mem) datas (trampolinePhys + k) =
      install mem (trampolinePhys + k) := fun datas k hk =>
    setApDatas_of_lt _ (Nat.add_lt_add_left (hk.trans (by decide)) _) datas
  refine ⟨fun h => hcode (h.intact _ List.mem_cons_self), hcode, fun datas => ⟨?_, ?_, ?_⟩,
    fun k hdata hk => install_data mem hdata hk⟩
  · intro k hk
    rw [hbelow datas k (by omega), install_code mem hk]
  · intro k hk
    have hlt : k < 6 := hk
    rw [Nat.add_assoc, hbelow datas _ (by omega), ← Nat.add_assoc]
    exact install_gdtDesc mem k hk
  · intro k hk
    have hlt : k < 40 := hk
    rw [Nat.add_assoc, hbelow datas _ (by omega), ← Nat.add_assoc]
    exact install_gdt mem k hk

/-- On a page full of zeros, the byte at offset 0x80 is the first one of the
descriptor and not the one of the code. -/
theorem code_end_overwritten :
    install (fun _ => 0) (trampolinePhys + 0x80) = 0x27 ∧ codeByte 0x80 = 0x01 ∧
      ¬Complete (install fun _ => 0) := by
  refine ⟨install_at_gdtDesc _, rfl, fun h => ?_⟩
  exact not_intact_code _ (h.intact (0, trampolineCode) List.mem_cons_self)

end SmpNostd.Trampoline

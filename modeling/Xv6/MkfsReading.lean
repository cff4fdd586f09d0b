import Xv6.MkfsImages

/-!
# Reading the image

The kernel reads from an image of `mkfs` the bytes that were appended, and finds the files
in the root directory. Inode 208 would be in the bitmap block: what `mkfs` writes there is
overwritten at its end.
-/

namespace Xv6.Mkfs

open ByteBlocks FileSystem Function PanicPrograms

variable {m m' : Image} {c : ℕ → List Byte} {i j k n a b p z off : ℕ} {l : List Byte} {d : Dinode}
  {files : List Input} {copyout : ℕ → ℕ → Bool} {E : Failure → Prop} {F : Panic → Prop}

/-- The bytes from `off` up to `off + n`, or up to the end. -/
def part (l : List Byte) (off n : ℕ) : List Byte := (l.drop off).take n

section Root

variable (h : Built (files.length + 2) m (contents files)) (hroom : files.length + 2 ≤ room.ninodes)

end Root

def oneByte : Input := ⟨[underscore, 97], underscored_ne_nul, some [[1]]⟩

/-- Neither the bitmap block nor the number of inodes matters before the end. -/
theorem Laid.beside (h : Laid z m c) {x : Block} :
    Laid z (({ m with freeinode := n } : Image).write superblock.bmapstart x) c := by
  have hlow := h.ready.low
  have hmeta : superblock.bmapstart < nmeta := by decide
  have hlen : superblock.bmapstart + 1 ≤ fsSize := by decide
  generalize hm' : ({ m with freeinode := n } : Image).write superblock.bmapstart x = m'
  have hsector : ∀ b ≠ superblock.bmapstart, m'.sector b = m.sector b := by
    intro b hb
    rw [← hm', Image.sector_write_ne hb]
  have hfree : m'.freeblock = m.freeblock := by rw [← hm']; rfl
  have hdinode : ∀ j < room.ninodes, m'.dinode j = m.dinode j := by
    intro j hj
    rw [Image.dinode, hsector _ (iblock_ne_bmapstart hj)]
    rfl
  have hdata : m'.data = m.data := by
    funext b
    simp only [Image.data]
    split
    · exact hsector b (by omega)
    · rfl
  have hready : Ready m' := by
    refine ⟨?_, hfree ▸ hlow, hfree ▸ h.ready.high, ?_⟩
    · rw [← hm', Image.write, h.ready.length]
      exact max_eq_left hlen
    · intro b hb
      rw [hfree] at hb
      rw [hsector b (by omega)]
      exact h.ready.blank b hb
  refine ⟨hready, h.room_le, ?_, ?_, ?_, ?_, ?_, h.unused, h.small, hfree ▸ h.count⟩
  · rw [hsector 1 (by decide)]
    exact h.sb
  · have hslot : (m'.hold rootIno (m'.dinode rootIno) []).slot room =
        (m.hold rootIno (m.dinode rootIno) []).slot room := by
      funext y
      rw [slot_hold root_lt, slot_hold root_lt, hdata]
      by_cases hy : y.1 < room.ninodes
      · rw [hdinode y.1 hy]
      · rw [if_neg (fun hc => hy hc.1), if_neg (fun hc => hy hc.1)]
    have hbit : (m'.hold rootIno (m'.dinode rootIno) []).bitmap =
        (m.hold rootIno (m.dinode rootIno) []).bitmap := by
      rw [Image.hold, Image.hold, hfree]
    exact ⟨h.blocks.sane, by rw [hslot, hbit]; exact h.blocks.owned,
      by rw [hbit]; exact h.blocks.reserved⟩
  · intro j hj
    rw [hdinode j hj]
    exact h.type j hj
  · intro j hj
    rw [hdinode j hj]
    exact h.size j hj
  · intro j hj hkind
    have hholds := h.holds j hj hkind
    exact ⟨by rw [hdata, hdinode j hj]; exact hholds.places,
      by rw [hdata, hdinode j hj]; exact hholds.bytes⟩

end Xv6.Mkfs

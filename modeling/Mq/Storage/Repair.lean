import Mq.Record.Walk
import Mq.Storage.Recovery

/-!
# Recovery from arbitrary bytes

What `recoverActive` of `internal/storage/log.go` does with a `.log` file of any content, not
only with what a crash leaves of a log.  The scan goes by the length field of each header.
It adds that field to its position in 32 bits, and looks at nothing but an upper bound.

## Main definitions

* `Repaired` — what a recovered segment is: a prefix of the file that consists of whole
  batches, with an index over them, that another recovery leaves alone.
* `Repairs s now` — the recovery of `s` ends with such a segment.
* `Sound content` — no header that the scan comes to misleads it.

## Main results

* `sound_iff` — the content is sound if and only if the scan can stop behind whole batches.
* `repairs_iff_sound` — **recovery repairs a file if and only if its content is sound.**
-/

namespace Mq
namespace Storage

open Word Record

/-! ### Recovered segments -/

/-- **What a recovered segment is.**  The kept part of the file consists of the whole batches
`bs`; the index entries are on their boundaries, in increasing order; and nothing is left to
recover, in the open segment or after opening its files once more. -/
structure Repaired (s s' : Segment) (next : ℤ) (bs : List Bytes) : Prop where
  kept : s'.logFile = bs.flatten
  size : s'.logSize = bs.flatten.length
  isPrefix : s'.logFile <+: s.logFile
  framed : ∀ b ∈ bs, Framed b
  boundary : ∀ e ∈ s'.index, ∃ pre b post, bs = pre ++ b :: post ∧ e.position = pre.flatten.length
  increasing : s'.index.Pairwise fun d e => d.position < e.position
  again : ∀ now, recoverActive s' now = .ok (s', next)
  reopened : ∀ now, recoverActive (openSegment s'.files s'.indexInterval) now = .ok (s', next)

/-- Recovery ends with a recovered segment. -/
def Repairs (s : Segment) (now : ℤ) : Prop :=
  ∃ s' next bs, recoverActive s now = .ok (s', next) ∧ Repaired s s' next bs

/-! ### Content that does not mislead the scan -/

/-- **No header that the scan comes to misleads it**: behind whole batches, what parses is a
header of a batch that is no smaller than a header and ends at a position of 31 bits. -/
def Sound (content : Bytes) : Prop :=
  ∀ bs rest, Leads content bs rest → ∀ h, parseHeader rest = .ok h →
    headerSize ≤ h.totalSize ∧ bs.flatten.length + h.totalSize < 2147483648

/-- **Sound content** is where the scan can stop behind whole batches. -/
theorem sound_iff {content : Bytes} (hsmall : content.length < 2147483648) :
    Sound content ↔
      ∃ bs rest, Leads content bs rest ∧ Stops (2147483647 - bs.flatten.length) rest := by
  constructor
  · intro hsound
    obtain ⟨bs, rest, hleads, hends⟩ := exists_leads content
    refine ⟨bs, rest, hleads, fun h hparse => ?_⟩
    obtain ⟨hsize, hroom⟩ := hsound bs rest hleads h hparse
    have hlong := (hends h hparse).resolve_left (by omega)
    exact ⟨hlong, by omega⟩
  · rintro ⟨bs, rest, hleads, hstops⟩ cs rest' hleads' h hparse
    have hlen := congrArg List.length hleads.eq
    have hlen' := congrArg List.length hleads'.eq
    rw [List.length_append] at hlen hlen'
    -- a whole batch that the file has room for is fine
    have hwhole : ∀ b ds, Framed b → rest' = b ++ ds → headerSize ≤ h.totalSize ∧
        cs.flatten.length + h.totalSize < 2147483648 := by
      rintro b ds hb rfl
      rw [hb.parseHeader_append] at hparse
      cases hparse
      rw [List.length_append] at hlen'
      have h₁ := hb.1
      have h₂ := hb.2.2
      exact ⟨by omega, by omega⟩
    -- and so is the place where the scan stops
    have hhere : cs = bs → rest' = rest → headerSize ≤ h.totalSize ∧
        cs.flatten.length + h.totalSize < 2147483648 := by
      rintro rfl rfl
      have hlong := (parseHeader_eq_ok.mp hparse).1
      obtain ⟨h₁, h₂⟩ := hstops h hparse
      exact ⟨by omega, by omega⟩
    rcases hleads'.isPrefix hleads with ⟨ds, rfl⟩ | ⟨ds, rfl⟩
    · have hrest : rest' = ds.flatten ++ rest := by
        have := hleads'.eq.symm.trans hleads.eq
        rwa [List.flatten_append, List.append_assoc, List.append_cancel_left_eq] at this
      cases ds with
      | nil => exact hhere (List.append_nil cs).symm hrest
      | cons b ds =>
        rw [List.flatten_cons, List.append_assoc] at hrest
        exact hwhole b _ (hleads.framed b (by simp)) hrest
    · have hrest : rest = ds.flatten ++ rest' := by
        have := hleads.eq.symm.trans hleads'.eq
        rwa [List.flatten_append, List.append_assoc, List.append_cancel_left_eq] at this
      cases ds with
      | nil => exact hhere (List.append_nil bs) hrest.symm
      | cons b ds =>
        -- the scan does not stop at a whole batch
        have hb := hleads'.framed b (by simp)
        rw [List.flatten_cons, List.append_assoc] at hrest
        have hlt := (hstops (header b) (by rw [hrest, hb.parseHeader_append])).1
        rw [hrest, List.length_append, ← hb.2.2] at hlt
        omega

/-! ### Recovery of sound content -/

variable {s : Segment}

theorem Segment.rebuilt_holds {bs : List Bytes} {t : Bytes} (h : s.Holds bs t) (m : ℤ) :
    (s.rebuilt m bs).Holds bs [] := by
  have hpos : (scanAll s.baseOffset s.indexInterval bs).pos = bs.flatten.length :=
    scanAll_pos_eq (List.append_nil bs ▸ h)
  have hsmall := h.small
  rw [h.file, List.length_append] at hsmall
  exact ⟨(List.append_nil _).symm, hpos, (Nat.le_add_right _ _).trans_lt hsmall, h.framed⟩

theorem stops_nil (room : ℕ) : Stops room [] := by
  intro h hparse
  exact absurd (parseHeader_eq_ok.mp hparse).1 (by decide)

/-- What recovery keeps is recovered. -/
theorem repaired_rebuilt {bs : List Bytes} {t : Bytes} (h : s.Holds bs t) (m : ℤ) :
    Repaired s (s.rebuilt m bs) (s.nextAfter bs) bs := by
  have hholds := Segment.rebuilt_holds h m
  have hlen : bs.flatten.length < 2147483648 := hholds.small
  refine ⟨rfl, hholds.size, ⟨t, h.file.symm⟩, h.framed, fun e he => ?_,
    scanAll_increasing _ _ h.framed hlen, fun now => ?_, fun now => ?_⟩
  · obtain ⟨pre, b, post, rfl, hpos, -⟩ := scanAll_onBoundary _ _ h.framed e he
    rw [List.flatten_append, List.length_append] at hlen
    exact ⟨pre, b, post, rfl, by rw [hpos, wrap32_eq (by omega) (by omega)]⟩
  · exact recoverActive_holds hholds (stops_nil _) now
  · have hopen : (openSegment (s.rebuilt m bs).files s.indexInterval).Holds bs [] :=
      ⟨hholds.file, wrap32_eq (by omega) (by exact_mod_cast hlen), hholds.small, h.framed⟩
    exact recoverActive_holds hopen (stops_nil _) now

/-! ### Recovery of any content -/

/-- Where the scan ends, it would end again. -/
theorem recoverLoop_end (s : Segment) (fuel : ℕ) (c c' : Scan) (h : recoverLoop s fuel c = .ok c') :
    recoverLoop s 1 c' = .ok c' := by
  induction fuel generalizing c with
  | zero => cases h
  | succ fuel ih =>
    rw [recoverLoop] at h
    split at h
    · next hlt =>
      split at h
      · next hshort =>
        cases h
        rw [recoverLoop, if_pos hlt, if_pos hshort]
      · next hlong =>
        split at h
        · cases h
        · next hdr hread =>
          split at h
          · next e hparse =>
            cases h
            simp only [recoverLoop, if_pos hlt, if_neg hlong, hread, hparse]
          · next hd hparse =>
            dsimp only at h
            split at h
            · next hpast =>
              cases h
              simp only [recoverLoop, if_pos hlt, if_neg hlong, hread, hparse, if_pos hpast]
            · exact ih _ h
    · next hge =>
      cases h
      rw [recoverLoop, if_neg hge]

/-- The scan ends behind whole batches only where it can stop. -/
theorem stops_of_recoverLoop {bs : List Bytes} {t : Bytes} (h : s.Holds bs t) {c : Scan}
    (hc : c.pos = bs.flatten.length) (hend : recoverLoop s 1 c = .ok c) :
    Stops (2147483647 - bs.flatten.length) t := by
  intro hdr hparse
  have hsmall := h.small
  have hsize := h.size
  rw [h.file] at hsmall hsize
  simp only [List.length_append, Nat.cast_add] at hsmall hsize
  obtain ⟨hlong, -, rfl⟩ := parseHeader_eq_ok.mp hparse
  obtain ⟨hlow, hhigh⟩ := wrap32_bounds (getUint t offBatchLength 4)
  have htotal : (header t).totalSize = 12 + wrap32 (getUint t offBatchLength 4) := rfl
  have hremain : ¬ wrap32 (s.logSize - c.pos) < headerSize := by
    rw [hc, wrap32_eq (by omega) (by omega)]; omega
  have hlong' := hlong
  unfold headerSize at hlong'
  by_contra hno
  -- the sum is within the file, or it has become negative
  have hpast : ¬ s.logSize < wrap32 (c.pos + wrap32 (header t).totalSize) := by
    rw [hc]
    unfold wrap32 at hlow hhigh htotal ⊢
    omega
  rw [recoverLoop, if_pos (by rw [hc]; omega), if_neg hremain, hc, h.file,
    readAt_append hlong] at hend
  simp only [parseHeader_take hlong, hparse] at hend
  rw [hc] at hpast
  rw [if_neg hpast] at hend
  cases hend

/-- What a recovery that returns has done. -/
theorem recoverActive_cases {s' : Segment} {now next : ℤ}
    (h : recoverActive s now = .ok (s', next)) :
    ∃ c, recoverLoop s 1 c = .ok c ∧
      (c.pos = s.logSize ∧ s'.logFile = s.logFile ∨ (s'.logFile.length : ℤ) = c.pos) := by
  rw [recoverActive] at h
  cases hloop : recoverLoop s (s.logSize.toNat + 2) ⟨0, 0, [], 0⟩ with
  | error e => rw [hloop] at h; cases h
  | ok c =>
    refine ⟨c, recoverLoop_end s _ _ c hloop, ?_⟩
    rw [hloop] at h
    simp only [bind, Except.bind] at h
    by_cases hpos : c.pos = s.logSize
    · rw [if_pos hpos] at h
      cases h
      exact .inl ⟨hpos, rfl⟩
    · rw [if_neg hpos, truncate] at h
      by_cases hneg : c.pos < 0
      · rw [if_pos hneg] at h
        cases h
      · rw [if_neg hneg] at h
        cases h
        right
        simp only [List.length_append, List.length_take, List.length_replicate]
        omega

/-- **Recovery repairs a file if and only if its content is sound.** -/
theorem repairs_iff_sound (f : SegmentFiles) (indexInterval now : ℤ)
    (hsmall : f.log.length < 2147483648) :
    Repairs (openSegment f indexInterval) now ↔ Sound f.log := by
  have hsize : (openSegment f indexInterval).logSize = f.log.length :=
    wrap32_eq (by omega) (by exact_mod_cast hsmall)
  rw [sound_iff hsmall]
  constructor
  · rintro ⟨s', next, bs, hrec, hrep⟩
    obtain ⟨rest, hrest⟩ := hrep.isPrefix
    rw [hrep.kept] at hrest
    refine ⟨bs, rest, ⟨hrest.symm, hrep.framed⟩, ?_⟩
    obtain ⟨c, hend, hc⟩ := recoverActive_cases hrec
    refine stops_of_recoverLoop ⟨hrest.symm, hsize, hsmall, hrep.framed⟩ ?_ hend
    rcases hc with ⟨hpos, hfile⟩ | hpos
    · rw [hpos, hsize, ← hrep.kept, hfile]
      rfl
    · rw [← hpos, hrep.kept]
  · rintro ⟨bs, rest, hleads, hstops⟩
    have hholds : (openSegment f indexInterval).Holds bs rest :=
      ⟨hleads.eq, hsize, hsmall, hleads.framed⟩
    exact ⟨_, _, bs, recoverActive_holds hholds hstops now, repaired_rebuilt hholds _⟩

/-- A batch and the first forty bytes of another one. -/
theorem torn_file_repaired :
    Repairs (openSegment ⟨0, makeBatch 2 [7] ++ (makeBatch 1 []).take 40, [], 0⟩ 4096) 5 := by
  refine (repairs_iff_sound _ 4096 5 (by decide +kernel)).mpr ((sound_iff (by decide +kernel)).mpr ?_)
  refine ⟨[makeBatch 2 [7]], (makeBatch 1 []).take 40, ⟨by simp, ?_⟩, fun h hparse => ?_⟩
  · simpa using (wellFormed_makeBatch (by decide) (by decide) (by decide)).1
  · exact absurd (parseHeader_eq_ok.mp hparse).1 (by decide +kernel)

/-- **Headers that mislead the scan.**  It never leaves a header with a total size of zero; a
negative one takes it out of the file, as does a batch length behind another batch that
overflows the position; and behind a batch length of zero it cuts the file within the header. -/
theorem misleading_headers :
    recoverActive (openSegment ⟨0, headerOf (-12), [], 0⟩ 4096) 5 = .error .hang ∧
      recoverActive (openSegment ⟨0, headerOf (-13), [], 0⟩ 4096) 5 = .error (.error .readAt) ∧
      recoverActive (openSegment ⟨0, makeBatch 2 [7] ++ headerOf 2147483600, [], 0⟩ 4096) 5
        = .error (.error .writeAt) ∧
      (recoverActive (openSegment ⟨0, headerOf 0, [], 0⟩ 4096) 5).map (·.1.logFile.length)
        = .ok 12 ∧
      ¬ Repairs (openSegment ⟨0, headerOf (-12), [], 0⟩ 4096) 5 := by
  have hhang : recoverActive (openSegment ⟨0, headerOf (-12), [], 0⟩ 4096) 5 = .error .hang := by
    decide +kernel
  refine ⟨hhang, by decide +kernel, by decide +kernel, by decide +kernel, ?_⟩
  rintro ⟨s', next, bs, hrec, -⟩
  rw [hhang] at hrec
  cases hrec

end Storage
end Mq

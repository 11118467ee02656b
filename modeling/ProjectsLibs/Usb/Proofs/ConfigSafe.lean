/-
`parse_config` on any table: it ends, and it stays within the table, the
descriptors and `udev->ep` exactly if the table is one of descriptors that
hold the fields of their type (`config_safe_iff`).

A run that nothing ends early passes all descriptors, and a read outside
of one stays among the reads to the end (`parseLoop_subset`). So if there
is none at the end, the fields of each descriptor lie in it
(`Parsed.exists_fits`).

# The converse

The other module shows what a table that fits is parsed to. Here it is
shown that one that does not fit makes the parser read or write out of
bounds, so the steps are followed backwards: from a step that ended well
one gets that its reads were inside and its stores in the table (the
lemmas `_inv`), and a run keeps the reads that it has recorded. Whether
the class of an interface is read depends on the class so far, which a
callback may change: `anyClass` is the class that a descriptor may find
then, and `clearClass` the callback that shows that no more can be said,
since the statement is for all callbacks at once.
-/
import ProjectsLibs.Usb.Proofs.Config

namespace ProjectsLibs.Usb

open Lib

-- ======================================================= the condition

/-- The table is one of descriptors whose fields lie in them, up to its
end or a byte 0. -/
def Fits (classes : Classes) (table : List UInt8) : Prop :=
  ∃ ds rest, table = ds.flatten ++ rest ∧ FitsFrom classes [] ds rest

/-- The class that a descriptor may find when a callback writes what it
likes: the first finds that of the device, and any other may find 0. -/
def anyClass (cls : UInt8) : Classes := fun ds => if ds = [] then cls else 0

/-- A run ends, with no access out of bounds. -/
def Safe (x : ConfigStep) : Prop :=
  ∃ s flow, x = .ok (s, flow) ∧ s.Within

variable {alloc : Nat → Bool} {cb : Option ConfigCb} {udev : ConfigDev}
  {ds ds' : List (List UInt8)} {d t rest : List UInt8} {cls : UInt8}
  {s s' : Parser} {flow : Flow} {n off : Nat} {classes : Classes}

/-- The call at the end reads no field. -/
theorem reportEnd_fieldReads (totLen : Nat) :
    (reportEnd cb totLen s).fieldReads = s.fieldReads := by
  unfold reportEnd
  split
  · rfl
  · split
    · rfl
    · rfl

/-- The call for the end reads nothing. -/
theorem safe_parseConfig {table : List UInt8} :
    Safe (parseConfig alloc cb udev table)
      ↔ Safe (parseLoop alloc cb table.length (table.length + 1)
        (.start udev table)) := by
  unfold Safe parseConfig Parser.Within
  cases parseLoop alloc cb table.length (table.length + 1)
      (.start udev table) with
  | error e => simp
  | ok r =>
      obtain ⟨s, flow⟩ := r
      cases flow with
      | next => simp [reportEnd_fieldReads]
      | leave => simp [reportEnd_fieldReads]
      | fatal => simp

/-- A table that fits is parsed without a read or write out of bounds. -/
theorem Safe.of_fits {table : List UInt8} (h : Fits classes table)
    (hclasses : Foreseen classes cb udev) :
    Safe (parseConfig alloc cb udev table) := by
  rw [safe_parseConfig]
  obtain ⟨ds, rest, rfl, hfits⟩ := h
  rcases hfits.parseLoop alloc cb hclasses with
    ⟨s, hs, h⟩ | ⟨s, flow, hs, hwithin, -⟩
  · exact ⟨s, .leave, hs, h.within⟩
  · exact ⟨s, flow, hs, hwithin⟩

-- ================================================== what a pass has read

/-- A field that is read is recorded. -/
theorem readField_inv {b : UInt8} (h : readField n off s = .ok (b, s')) :
    s' = { s with fieldReads := s.fieldReads ++ [(off, n)] } := by
  unfold readField at h
  split at h
  · cases h
    rfl
  · cases h

/-- The offsets that the update by a type reads. -/
def offsets (cls : UInt8) (type : Nat) : List Nat :=
  if type = descConfiguration then [5]
  else if type = descInterface then if cls = 0 then [2, 5] else [2]
  else if type = descEndpoint then [3, 2, 4, 5, 6]
  else []

/-- If the offsets of the fields are inside the descriptor, so is the end
of the last. -/
theorem fieldsEnd_le (h : ∀ off ∈ offsets cls n, off < d.length) :
    fieldsEnd cls n ≤ d.length := by
  unfold offsets at h
  unfold fieldsEnd
  split_ifs at h ⊢
  · exact h 5 (by simp)
  · exact h 5 (by simp)
  · exact h 2 (by simp)
  · exact h 6 (by simp)
  · exact Nat.zero_le _

/-- Which fields of a configuration descriptor are read. -/
theorem onConfiguration_inv (h : onConfiguration n s = .ok (s', flow)) :
    flow = .next ∧ s'.fieldReads = s.fieldReads ++ [(5, n)] := by
  obtain ⟨⟨b, s₁⟩, h₁, h⟩ := bind_eq_ok h
  obtain rfl := readField_inv h₁
  cases h
  exact ⟨rfl, rfl⟩

/-- Which fields of an interface descriptor are read. -/
theorem onInterface_inv (h : onInterface n s = .ok (s', flow)) :
    flow = .next ∧ s'.fieldReads = s.fieldReads
      ++ (if s.udev.cls = 0 then [2, 5] else [2]).map fun off => (off, n) := by
  obtain ⟨⟨b, s₁⟩, h₁, h⟩ := bind_eq_ok h
  obtain rfl := readField_inv h₁
  by_cases hcls : s.udev.cls = 0
  · simp only [if_pos hcls] at h
    obtain ⟨⟨c, s₂⟩, h₂, h⟩ := bind_eq_ok h
    obtain rfl := readField_inv h₂
    cases h
    simp [hcls]
  · simp only [if_neg hcls] at h
    cases h
    simp [hcls]

/-- An endpoint was stored inside the table. -/
theorem storeEp_inv {ep : ConfigEp} (h : storeEp ep s = .ok (s', flow)) :
    flow = .next ∧ s.cnt < usbMaxEps ∧ s'.fieldReads = s.fieldReads := by
  unfold storeEp at h
  by_cases hcnt : s.cnt < usbMaxEps
  · rw [if_pos hcnt] at h
    cases h
    exact ⟨rfl, hcnt, rfl⟩
  · rw [if_neg hcnt] at h
    cases h

/-- Which fields of an endpoint descriptor are read, and that the table had
room. -/
theorem onEndpoint_inv (halloc : alloc s.allocs = true)
    (h : onEndpoint alloc n s = .ok (s', flow)) :
    flow = .next ∧ s.cnt < usbMaxEps
      ∧ s'.fieldReads = s.fieldReads
        ++ [3, 2, 4, 5, 6].map fun off => (off, n) := by
  unfold onEndpoint at h
  rw [if_pos halloc] at h
  obtain ⟨⟨b₁, s₁⟩, h₁, h⟩ := bind_eq_ok h
  obtain rfl := readField_inv h₁
  obtain ⟨⟨b₂, s₂⟩, h₂, h⟩ := bind_eq_ok h
  obtain rfl := readField_inv h₂
  obtain ⟨⟨b₃, s₃⟩, h₃, h⟩ := bind_eq_ok h
  obtain rfl := readField_inv h₃
  obtain ⟨⟨b₄, s₄⟩, h₄, h⟩ := bind_eq_ok h
  obtain rfl := readField_inv h₄
  obtain ⟨⟨b₅, s₅⟩, h₅, h⟩ := bind_eq_ok h
  obtain rfl := readField_inv h₅
  obtain ⟨hflow, hcnt, hreads⟩ := storeEp_inv h
  exact ⟨hflow, hcnt, by simp [hreads]⟩

/-- The update by the type of a descriptor, when it has run. -/
theorem decodeDesc_inv (halloc : ∀ k, alloc k = true)
    (h : decodeDesc alloc n s = .ok (s', flow)) :
    flow = .next ∧ ∃ b, s.d[1]? = some b
      ∧ (b.toNat = descEndpoint → s.cnt < usbMaxEps)
      ∧ s'.fieldReads = s.fieldReads
        ++ (offsets s.udev.cls b.toNat).map fun off => (off, n) := by
  unfold decodeDesc at h
  cases htype : s.d[1]? with
  | none =>
      rw [htype] at h
      cases h
  | some b =>
      rw [htype] at h
      simp only at h
      unfold offsets
      by_cases hb2 : b.toNat = descConfiguration
      · rw [if_pos hb2] at h
        obtain ⟨hflow, hreads⟩ := onConfiguration_inv h
        refine ⟨hflow, b, rfl, fun hb5 => ?_, ?_⟩
        · rw [hb2] at hb5
          exact absurd hb5 (by decide)
        · rw [if_pos hb2]
          exact hreads
      rw [if_neg hb2] at h
      by_cases hb4 : b.toNat = descInterface
      · rw [if_pos hb4] at h
        obtain ⟨hflow, hreads⟩ := onInterface_inv h
        refine ⟨hflow, b, rfl, fun hb5 => ?_, ?_⟩
        · rw [hb4] at hb5
          exact absurd hb5 (by decide)
        · rw [if_neg hb2, if_pos hb4]
          exact hreads
      rw [if_neg hb4] at h
      by_cases hb5 : b.toNat = descEndpoint
      · rw [if_pos hb5] at h
        obtain ⟨hflow, hcnt, hreads⟩ := onEndpoint_inv (halloc _) h
        refine ⟨hflow, b, rfl, fun _ => hcnt, ?_⟩
        rw [if_neg hb2, if_neg hb4, if_pos hb5]
        exact hreads
      · rw [if_neg hb5] at h
        cases h
        refine ⟨rfl, b, rfl, fun hb => absurd hb hb5, ?_⟩
        rw [if_neg hb2, if_neg hb4, if_neg hb5]
        simp

/-- With memory, the buffer is made to fit. -/
theorem fitBuffer_next (halloc : ∀ k, alloc k = true) (n : Nat)
    (s : Parser) :
    ∃ usrd allocs, fitBuffer alloc n s
      = .ok ({ s with usrd, allocs }, .next) := by
  unfold fitBuffer
  by_cases hshort : s.usrd.length < n
  · rw [if_pos hshort, if_pos (halloc _)]
    exact ⟨_, _, rfl⟩
  · rw [if_neg hshort]
    exact ⟨_, _, rfl⟩

/-- A callback that returns 0 lets the loop go on. -/
theorem sendDesc_next
    (hcb : ∀ f, cb = some f → ∀ calls dev, (f calls dev).1 = 0) (n : Nat)
    (s : Parser) :
    ∃ calls udev,
      sendDesc cb n s = .ok ({ s with calls, udev }, .next) := by
  cases cb with
  | none => exact ⟨_, _, rfl⟩
  | some f =>
      unfold sendDesc
      simp only [hcb f rfl, if_true]
      exact ⟨_, _, rfl⟩

/-- What the table holds where a pass has got through, and what it has
read. -/
structure Passed (s s' : Parser) (n : Nat) : Prop where
  header : s.d.head?.map UInt8.toNat = some n
  pos : 0 < n
  le : n ≤ s.d.length
  type : ∃ b, s.d[1]? = some b
    ∧ (b.toNat = descEndpoint → s.cnt < usbMaxEps)
    ∧ s'.fieldReads = s.fieldReads
      ++ (offsets s.udev.cls b.toNat).map fun off => (off, n)

/-- A pass that nothing ends early gets through, or is at a byte 0. -/
theorem parseDesc_inv (hun : Undisturbed alloc cb)
    (h : parseDesc alloc cb s = .ok (s', flow)) :
    (flow = .leave ∧ s' = s ∧ s.d.head? = some 0)
      ∨ flow = .next ∧ ∃ n, Passed s s' n := by
  unfold parseDesc at h
  cases hd : s.d with
  | nil =>
      rw [hd] at h
      cases h
  | cons b t =>
      rw [hd] at h
      simp only at h
      by_cases hzero : b.toNat = 0
      · rw [if_pos hzero] at h
        cases h
        have hb : b = 0 := UInt8.toNat_inj.1 hzero
        exact .inl ⟨rfl, rfl, congrArg some hb⟩
      · rw [if_neg hzero] at h
        right
        obtain ⟨usrd, allocs, hfit⟩ := fitBuffer_next hun.1 b.toNat s
        rw [hfit, ConfigStep.andThen_next] at h
        unfold copyDesc at h
        by_cases hle : b.toNat ≤ s.d.length
        · simp only [if_pos hle, ConfigStep.andThen_next] at h
          cases hdec : decodeDesc alloc b.toNat { s with
              usrd := s.d.take b.toNat ++ usrd.drop b.toNat
              allocs } with
          | error e =>
              rw [hdec] at h
              cases h
          | ok r =>
              obtain ⟨s₁, flow₁⟩ := r
              obtain ⟨rfl, htype⟩ := decodeDesc_inv hun.1 hdec
              obtain ⟨calls, udev, hsend⟩ :=
                sendDesc_next hun.2 b.toNat s₁
              rw [hdec, ConfigStep.andThen_next, hsend,
                ConfigStep.andThen_next] at h
              cases h
              refine ⟨rfl, b.toNat, ?_, Nat.pos_of_ne_zero hzero, hle,
                htype⟩
              rw [hd]
              rfl
        · simp only [if_neg hle] at h
          cases h

-- ============================================================= the loop

theorem parseDesc_subset (hun : Undisturbed alloc cb)
    (h : parseDesc alloc cb s = .ok (s', flow)) :
    s.fieldReads ⊆ s'.fieldReads := by
  rcases parseDesc_inv hun h with ⟨-, rfl, -⟩ | ⟨-, n, hpassed⟩
  · exact fun r hr => hr
  · obtain ⟨b, -, -, hreads⟩ := hpassed.type
    rw [hreads]
    exact List.subset_append_left ..

/-- Reads made are not forgotten, so a bad one early on shows at the end. -/
theorem parseLoop_subset (hun : Undisturbed alloc cb) {totLen fuel : Nat}
    (h : parseLoop alloc cb totLen fuel s = .ok (s', flow)) :
    s.fieldReads ⊆ s'.fieldReads := by
  induction fuel generalizing s with
  | zero => cases h
  | succ fuel ih =>
      unfold parseLoop at h
      split at h
      · rcases ConfigStep.andThen_eq_ok h with ⟨s₁, h₁, h⟩ |
          ⟨h₁, -⟩
        · exact fun r hr => ih h (parseDesc_subset hun h₁ hr)
        · exact parseDesc_subset hun h₁
      · cases h
        exact fun r hr => hr

/-- Where a pass has got through with all reads in the descriptor, the
fields of the descriptor lie in it. -/
theorem Passed.readable (h : Passed s s' n) (hs' : s'.Within)
    (hcls : s.udev.cls = cls) :
    Readable cls (s.d.take n) (s.d.drop n)
      ∧ (hasType descEndpoint (s.d.take n) = true → s.cnt < usbMaxEps) := by
  have hlen : (s.d.take n).length = n := List.length_take_of_le h.le
  obtain ⟨b, hb, hcnt, hreads⟩ := h.type
  have hread : Readable cls (s.d.take n) (s.d.drop n) := by
    refine ⟨?_, b, ?_, ?_⟩
    · rw [List.head?_take, if_neg h.pos.ne', h.header, hlen]
    · rw [List.take_append_drop]
      exact hb
    · refine fieldsEnd_le fun off hoff => ?_
      rw [hlen]
      refine hs' (off, n) ?_
      rw [hreads, hcls]
      exact List.mem_append_right _ (List.mem_map_of_mem hoff)
  refine ⟨hread, fun htype => hcnt ?_⟩
  have hb' : (s.d.take n ++ s.d.drop n)[1]? = some b := by
    rw [List.take_append_drop]
    exact hb
  exact (hread.hasType_iff hb' descEndpoint (by decide)).1 htype

/-- The table of a run that nothing ends early and that reads within its
descriptors. -/
theorem Parsed.exists_fits (hun : Undisturbed alloc cb)
    (hclasses : ∀ ds, classes ds = 0 → (deviceOf cb udev ds).cls = 0)
    (h : Parsed cb udev ds t s) (heps : (epsOf ds).length ≤ usbMaxEps)
    {totLen fuel : Nat} (htot : totLen = s.curLen + t.length)
    (hrun : Usb.parseLoop alloc cb totLen fuel s = .ok (s', flow))
    (hs' : s'.Within) :
    ∃ ds' rest, t = ds'.flatten ++ rest ∧ FitsFrom classes ds ds' rest := by
  -- each round has read one descriptor, which can be put in front of those
  -- of the rounds after
  induction fuel generalizing ds t s with
  | zero => cases hrun
  | succ fuel ih =>
      have hnone : ∀ rest, (rest = [] ∨ rest.head? = some 0) →
          FitsFrom classes ds [] rest := by
        intro rest hstop
        refine ⟨hstop, by rwa [List.append_nil], ?_⟩
        intro pre d post hpre
        simp at hpre
      unfold Usb.parseLoop at hrun
      by_cases hlt : s.curLen < totLen
      · rw [if_pos hlt] at hrun
        obtain rfl : s.d = t := h.rest
        rcases ConfigStep.andThen_eq_ok hrun with
          ⟨s₁, h₁, hrun⟩ | ⟨h₁, hflow⟩
        · have hs₁ : s₁.Within := fun r hr =>
            hs' r (parseLoop_subset hun hrun hr)
          rcases parseDesc_inv hun h₁ with ⟨hleave, -⟩ |
            ⟨-, n, hpassed⟩
          · cases hleave
          obtain ⟨hread, hcnt⟩ := hpassed.readable hs₁
            (congrArg ConfigDev.cls h.udev)
          have heps' : (epsOf (ds ++ [s.d.take n])).length ≤ usbMaxEps := by
            rw [epsOf_append]
            split
            · next htype =>
                have hlt := hcnt htype
                rw [h.cnt] at hlt
                rw [List.length_append]
                exact hlt
            · simpa using heps
          have hsplit : Parsed cb udev ds (s.d.take n ++ s.d.drop n) s := by
            rwa [List.take_append_drop]
          rcases hsplit.parseDesc alloc hread heps' with
            ⟨s₂, h₂, hparsed⟩ | ⟨s₂, flow₂, h₂, hflow₂, -⟩
          · obtain rfl : s₁ = s₂ := by
              rw [h₁] at h₂
              cases h₂
              rfl
            have hle := hpassed.le
            obtain ⟨ds', rest, htail, hfits⟩ := ih hparsed heps' (by
              rw [htot, hparsed.curLen, h.curLen, List.length_drop]
              simp only [List.flatten_append, List.flatten_singleton,
                List.length_append, List.length_take]
              omega) hrun
            refine ⟨s.d.take n :: ds', rest, ?_, .cons ?_ hfits⟩
            · rw [List.flatten_cons, List.append_assoc, ← htail,
                List.take_append_drop]
            · rw [← htail]
              exact hread.weaken (hclasses ds)
          · rw [h₁] at h₂
            cases h₂
            exact absurd rfl hflow₂
        · rcases parseDesc_inv hun h₁ with ⟨-, -, hzero⟩ | ⟨hnext, -⟩
          · exact ⟨[], s.d, rfl, hnone _ (.inr hzero)⟩
          · exact absurd hnext hflow
      · have ht : t = [] := List.length_eq_zero_iff.1 (by omega)
        exact ⟨[], t, rfl, hnone t (.inl ht)⟩

-- ========================================================== the statement

/-- The other direction: if nothing was out of bounds, the table fits. -/
theorem Fits.of_safe (hun : Undisturbed alloc cb)
    (hclasses : ∀ ds, classes ds = 0 → (deviceOf cb udev ds).cls = 0)
    {table : List UInt8} (h : Safe (parseConfig alloc cb udev table)) :
    Fits classes table := by
  rw [safe_parseConfig] at h
  obtain ⟨s, flow, hrun, hwithin⟩ := h
  refine (Parsed.start cb udev table).exists_fits hun hclasses ?_ ?_ hrun
    hwithin
  · exact Nat.zero_le _
  · simp [Parser.start]

/-- A callback that clears the class. -/
def clearClass : ConfigCb := fun _ dev => (0, { dev with cls := 0 })

/-- A callback that clears the class makes the parser store it again for
each interface. -/
theorem deviceOf_clearClass (udev : ConfigDev) (ds : List (List UInt8)) :
    (deviceOf (some clearClass) udev ds).cls = anyClass udev.cls ds := by
  cases ds using List.reverseRecOn with
  | nil => rfl
  | append_singleton ds d =>
      rw [deviceOf_append, anyClass, if_neg (by simp)]
      rfl

/-- `parse_config` ends and stays in bounds, with all callbacks and
whatever allocations fail, exactly on tables that fit; with the callbacks
that leave the class alone, exactly on those that fit when the class is
the one that the parser has stored. -/
theorem config_safe_iff (udev : ConfigDev) (table : List UInt8) :
    ((∀ alloc cb, Safe (parseConfig alloc cb udev table))
      ↔ Fits (anyClass udev.cls) table)
    ∧ ((∀ alloc cb, LeavesClass cb →
      Safe (parseConfig alloc cb udev table))
      ↔ Fits (classOf udev.cls) table) := by
  refine ⟨⟨fun h => ?_, fun h alloc cb => ?_⟩, fun h => ?_,
    fun h alloc cb hcb => ?_⟩
  · have hun : Undisturbed (fun _ => true) (some clearClass) :=
      ⟨fun _ => rfl, fun f hf _ _ => by cases hf; rfl⟩
    exact .of_safe hun (fun ds hds =>
      (deviceOf_clearClass udev ds).trans hds) (h _ _)
  · refine .of_fits h fun ds hzero => ?_
    unfold anyClass
    split
    · next hnil =>
        rw [hnil] at hzero
        exact hzero
    · rfl
  · have hun : Undisturbed (fun _ => true) none :=
      ⟨fun _ => rfl, fun f hf => nomatch hf⟩
    have hcb : LeavesClass none := fun _ _ => rfl
    exact .of_safe hun (fun ds hds => (deviceOf_cls hcb udev ds).trans hds)
      (h _ _ hcb)
  · exact .of_fits h fun ds hzero =>
      (deviceOf_cls hcb udev ds).symm.trans hzero

/-- A run that overran something is not safe. -/
theorem not_safe_error {x : ConfigStep} {e : Overrun} (hx : x = .error e) :
    ¬Safe x := by
  intro ⟨s, flow, hok, _⟩
  rw [hx] at hok
  cases hok

set_option maxRecDepth 8000 in
/-- The table ends in a descriptor; a descriptor is shorter than its
struct; there is one endpoint too many. -/
theorem config_unsafe :
    ¬Safe
      (parseConfig (fun _ => true) none ⟨0, fun _ => none⟩ [9, 2, 4, 0])
      ∧ ¬Safe
        (parseConfig (fun _ => true) none ⟨0, fun _ => none⟩ [2, 2])
      ∧ ¬Safe (parseConfig (fun _ => true) none ⟨0, fun _ => none⟩
        (List.replicate 33 [7, 5, 0x81, 2, 64, 0, 0]).flatten) := by
  refine ⟨not_safe_error (e := .table) rfl, not_safe_error (e := .copy) rfl,
    not_safe_error (e := .eps) rfl⟩

end ProjectsLibs.Usb

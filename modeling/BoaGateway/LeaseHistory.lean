import BoaGateway.LeaseFile

/-!
# The array of leases after a file

A file is read block by block, and every block of it is the last one of a shorter file. The array
is right after each of them exactly if each block and the array before it go together.
-/

namespace LeaseHistory

open ByteBlocks Texts Netmask DuidText Tokens LeaseMerge LeaseFile

/-- The neighbour can be asked for, and what is read does not say that it has failed. -/
def NeighFine (neigh : Bytes → Option (Option Bytes)) (iaaddr : Bytes) : Prop :=
  ∃ line, neigh iaaddr = some line ∧ ∀ l ∈ line, contains l (ascii "FAILED") = false

/-- The function returns 0 and the array is right. -/
def RightFile (long : Long) (now : Int) (neigh : Bytes → Option (Option Bytes)) (max : Nat)
    (blocks : List LeaseBlock) : Prop :=
  ∃ leases, rtkGetDhcpv6LeaseInfo long now neigh max (some (fileText blocks)) =
      some ⟨0, leases, some leases.length⟩ ∧
    Right max (blocks.map (LeaseBlock.record long now)) leases

/-- A block and the array before it go together. While there is room, the client's text fits in
the buffer, that of a lease that is not over is read as a whole, and the neighbour of a static
one has not failed. -/
def BlockFits (long : Long) (now : Int) (neigh : Bytes → Option (Option Bytes)) (max : Nat)
    (leases : List Lease) (b : LeaseBlock) : Prop :=
  if leases.length < max then
    (1 ≤ (allBytes long b.token).length ∧ (allBytes long b.token).length ≤ 26) ∧
      (stateValue b.state ≠ 0 → (b.asRead long now).duid = (b.record long now).duid) ∧
      (stateValue b.state = 2 → NeighFine neigh b.iaaddr) ∧
      Fits max leases (b.asRead long now)
  else Fits max leases (b.record long now)

/-- The array before the neighbours are looked at. -/
def leasesAfter (long : Long) (now : Int) (max : Nat) (blocks : List LeaseBlock) : List Lease :=
  addRecords max (blocks.map (LeaseBlock.asRead long now))

variable {long : Long} {now : Int} {neigh : Bytes → Option (Option Bytes)} {max : Nat}
  {blocks done : List LeaseBlock} {b : LeaseBlock}

theorem no_result : contains [] (ascii "FAILED") = false := by decide

/-- The neighbours of all static leases are fine. -/
def AllFine (neigh : Bytes → Option (Option Bytes)) (leases : List Lease) : Prop :=
  ∀ e ∈ leases, e.active = 2 → NeighFine neigh e.iaaddr

theorem checkStatic_fine {cmdResult : Bytes} {es : List Lease}
    (hcmd : contains cmdResult (ascii "FAILED") = false) (h : AllFine neigh es) :
    checkStatic neigh cmdResult es = (true, es) := by
  induction es generalizing cmdResult with
  | nil => rfl
  | cons e es ih =>
    obtain ⟨he, hes⟩ := List.forall_mem_cons.mp h
    rw [checkStatic]
    by_cases hstatic : e.active = 2
    · obtain ⟨line, hline, hfine⟩ := he hstatic
      have hres : contains (line.getD cmdResult) (ascii "FAILED") = false := by
        cases line with
        | none => exact hcmd
        | some l => exact hfine l rfl
      rw [if_pos hstatic, hline]
      dsimp only
      rw [ih hres hes, hres]
      rfl
    · rw [if_neg hstatic, ih hcmd hes]

/-- Where a neighbour is not fine, the first such lease is made inactive, or nothing is
counted. -/
theorem checkStatic_failed {cmdResult : Bytes} {es : List Lease}
    (hcmd : contains cmdResult (ascii "FAILED") = false) (h : ¬AllFine neigh es) :
    (checkStatic neigh cmdResult es).1 = false ∨
      ∃ e ∈ es, (e.active = 2 ∧ ¬NeighFine neigh e.iaaddr) ∧
        { e with active := 0 } ∈ (checkStatic neigh cmdResult es).2 := by
  induction es generalizing cmdResult with
  | nil => exact absurd nofun h
  | cons e es ih =>
    rw [checkStatic]
    by_cases hstatic : e.active = 2
    · rw [if_pos hstatic]
      by_cases hfine : NeighFine neigh e.iaaddr
      · obtain ⟨line, hline, hl⟩ := hfine
        have hres : contains (line.getD cmdResult) (ascii "FAILED") = false := by
          cases line with
          | none => exact hcmd
          | some l => exact hl l rfl
        have hrest : ¬AllFine neigh es := fun hes =>
          h (List.forall_mem_cons.mpr ⟨fun _ => ⟨line, hline, hl⟩, hes⟩)
        rw [hline]
        dsimp only
        rcases ih hres hrest with hret | ⟨x, hx, hbad, hmem⟩
        · exact .inl hret
        · exact .inr ⟨x, List.mem_cons_of_mem _ hx, hbad, List.mem_cons_of_mem _ hmem⟩
      · cases hline : neigh e.iaaddr with
        | none => exact .inl rfl
        | some line =>
          right
          refine ⟨e, List.mem_cons_self, ⟨hstatic, hfine⟩, ?_⟩
          have hres : contains (line.getD cmdResult) (ascii "FAILED") = true := by
            cases line with
            | none => exact absurd ⟨none, hline, nofun⟩ hfine
            | some l =>
              by_contra hl
              refine hfine ⟨some l, hline, fun l' hl' => ?_⟩
              obtain rfl := Option.some.inj hl'
              exact Bool.eq_false_iff.mpr hl
          dsimp only
          rw [if_pos hres]
          exact List.mem_cons_self
    · rw [if_neg hstatic]
      have hrest : ¬AllFine neigh es := fun hes =>
        h (List.forall_mem_cons.mpr ⟨fun hs => absurd hs hstatic, hes⟩)
      rcases ih hcmd hrest with hret | ⟨x, hx, hbad, hmem⟩
      · exact .inl hret
      · exact .inr ⟨x, List.mem_cons_of_mem _ hx, hbad, List.mem_cons_of_mem _ hmem⟩

theorem loop_join (h : ∀ b ∈ blocks, b.WellFormed) :
    wholeLines (fileText blocks) = blocks.flatMap LeaseBlock.lines := by
  refine wholeLines_join fun l hl => ?_
  obtain ⟨b, hb, hmem⟩ := List.mem_flatMap.mp hl
  exact lines_isLine (h b hb) l hmem

/-- The scan behind some blocks. -/
def scanned (long : Long) (now : Int) (max : Nat) (blocks : List LeaseBlock) : Option Scan :=
  leaseLoop long now max (blocks.flatMap LeaseBlock.lines) ⟨[], Block.zeros 80, 0, []⟩

theorem scanned_append (b : LeaseBlock) :
    scanned long now max (done ++ [b]) =
      (scanned long now max done).bind (leaseLoop long now max b.lines) := by
  rw [scanned, List.flatMap_append, List.flatMap_singleton, leaseLoop_append]
  rfl

theorem rightFile_iff (h : ∀ b ∈ blocks, b.WellFormed) :
    RightFile long now neigh max blocks ↔
      ∃ s, scanned long now max blocks = some s ∧
        ∃ leases, checkStatic neigh [] s.leases = (true, leases) ∧
          Right max (blocks.map (LeaseBlock.record long now)) leases := by
  rw [RightFile, rtkGetDhcpv6LeaseInfo, loop_join h]
  constructor
  · rintro ⟨leases, hres, hright⟩
    obtain ⟨s, hs, hres⟩ := Option.map_eq_some_iff.mp hres
    refine ⟨s, hs, leases, ?_, hright⟩
    rcases hcheck : checkStatic neigh [] s.leases with ⟨ok, leases'⟩
    rw [hcheck] at hres
    cases ok with
    | false =>
      have hret : (1 : Int) = 0 := congrArg Result.ret hres
      exact absurd hret (by decide)
    | true =>
      have hleases : leases' = leases := congrArg Result.leases hres
      rw [hleases]
  · rintro ⟨s, hs, leases, hcheck, hright⟩
    refine ⟨leases, Option.map_eq_some_iff.mpr ⟨s, hs, ?_⟩, hright⟩
    rw [hcheck]

/-- What is known after some blocks that go together with the arrays before them. -/
structure Good (long : Long) (now : Int) (neigh : Bytes → Option (Option Bytes)) (max : Nat)
    (done : List LeaseBlock) : Prop where
  scan : ∃ s, scanned long now max done = some s ∧ s.active = 0 ∧
    s.leases = leasesAfter long now max done
  right : Right max (done.map (LeaseBlock.record long now)) (leasesAfter long now max done)
  fine : AllFine neigh (leasesAfter long now max done)

theorem Good.rightFile (h : Good long now neigh max done) (hwf : ∀ b ∈ done, b.WellFormed) :
    RightFile long now neigh max done := by
  obtain ⟨s, hs, -, hleases⟩ := h.scan
  refine (rightFile_iff hwf).mpr ⟨s, hs, _, ?_, h.right⟩
  rw [hleases]
  exact checkStatic_fine no_result h.fine

theorem leasesAfter_append (b : LeaseBlock) :
    leasesAfter long now max (done ++ [b]) =
      addRecord max (leasesAfter long now max done) (b.asRead long now) := by
  rw [leasesAfter, List.map_append, List.map_singleton, addRecords_append]
  rfl

theorem mem_mergeLease {r x : Lease} {out : List Lease} (hx : x ∈ mergeLease r out) :
    x = r ∨ x ∈ out ∨ x.active = 0 := by
  rcases matches_cases r out with hnone | ⟨front, e, behind, rfl, hfront, he⟩
  · rw [mergeLease_new hnone] at hx
    rcases List.mem_append.mp hx with hx | hx
    · exact .inr (.inl hx)
    · exact .inl (List.mem_singleton.mp hx)
  · rw [mergeLease_first hfront he] at hx
    rcases List.mem_append.mp hx with hx | hx
    · exact .inr (.inl (List.mem_append_left _ hx))
    · rcases List.mem_cons.mp hx with rfl | hx
      · by_cases hactive : r.active ≠ 0
        · rw [if_pos hactive]
          exact .inl rfl
        · rw [if_neg hactive]
          exact .inr (.inr rfl)
      · exact .inr (.inl (List.mem_append_right _ (List.mem_cons_of_mem _ hx)))

theorem mergeLease_mem {r : Lease} (hactive : r.active ≠ 0) (out : List Lease) :
    r ∈ mergeLease r out := by
  rcases matches_cases r out with hnone | ⟨front, e, behind, rfl, hfront, he⟩
  · rw [mergeLease_new hnone]
    exact List.mem_append_right _ List.mem_cons_self
  · rw [mergeLease_first hfront he, if_pos hactive]
    exact List.mem_append_right _ List.mem_cons_self

/-- The text of the client is without meaning in a record of a lease that is over. -/
theorem right_client {records out : List Lease} {r r' : Lease} (h : Right max (records ++ [r]) out)
    (haddr : r.iaaddr = r'.iaaddr) (hr : r.active = 0) (hr' : r'.active = 0) :
    Right max (records ++ [r']) out := by
  refine ⟨h.addresses, h.clients, fun e he => ?_, h.room⟩
  obtain ⟨r₀, hr₀, hstate⟩ := h.states e he
  rw [lastRecord_append] at hr₀ ⊢
  rw [haddr] at hr₀
  by_cases hlast : r'.iaaddr = e.iaaddr
  · rw [if_pos hlast] at hr₀ ⊢
    obtain rfl := Option.some.inj hr₀
    exact ⟨r', rfl, fun _ => hstate.1 hr, fun hne => absurd hr' hne⟩
  · rw [if_neg hlast] at hr₀ ⊢
    exact ⟨r₀, hr₀, hstate⟩

/-- An array that a record went to, and the records with the text of the client read
otherwise. -/
theorem right_asRead_iff {records out : List Lease} (h : Right max records out)
    (hroom : out.length < max) :
    Right max (records ++ [b.record long now]) (addRecord max out (b.asRead long now)) ↔
      (stateValue b.state ≠ 0 → (b.asRead long now).duid = (b.record long now).duid) ∧
        Fits max out (b.asRead long now) := by
  rw [← right_addRecord_iff h]
  by_cases hactive : stateValue b.state = 0
  · constructor
    · intro h'
      exact ⟨fun hne => absurd hactive hne, right_client h' rfl hactive hactive⟩
    · rintro ⟨-, h'⟩
      exact right_client h' rfl hactive hactive
  · by_cases hduid : (b.asRead long now).duid = (b.record long now).duid
    · have hsame : b.asRead long now = b.record long now :=
        Lease.mk.injEq .. ▸ ⟨rfl, hduid, rfl, rfl⟩
      rw [hsame]
      exact ⟨fun h' => ⟨fun _ => rfl, h'⟩, fun h' => h'.2⟩
    · refine iff_of_false (fun h' => ?_) fun h' => hduid (h'.1 hactive)
      -- the entry with the text as it was read has the last record's address
      have hmem : b.asRead long now ∈ addRecord max out (b.asRead long now) := by
        rw [addRecord, if_pos hroom]
        exact mergeLease_mem hactive out
      obtain ⟨r, hr, hstate⟩ := h'.states _ hmem
      have haddr : (b.record long now).iaaddr = (b.asRead long now).iaaddr := rfl
      rw [lastRecord_append, if_pos haddr] at hr
      obtain rfl := Option.some.inj hr
      exact hduid (congrArg Lease.duid (hstate.2 hactive))

/-- The neighbour of a static lease that comes in. -/
theorem allFine_iff {out : List Lease} (h : AllFine neigh out) (hroom : out.length < max) :
    AllFine neigh (addRecord max out (b.asRead long now)) ↔
      (stateValue b.state = 2 → NeighFine neigh b.iaaddr) := by
  rw [addRecord, if_pos hroom]
  constructor
  · intro hall hstatic
    have hne : (b.asRead long now).active ≠ 0 := by
      change stateValue b.state ≠ 0
      rw [hstatic]
      decide
    exact hall _ (mergeLease_mem hne out) hstatic
  · intro hfine e he hstatic
    rcases mem_mergeLease he with rfl | he | hzero
    · exact hfine hstatic
    · exact h e he hstatic
    · exact absurd (hzero.symm.trans hstatic) (by decide)

/-- The scan behind one more block, while there is room. -/
theorem scanned_block (h : Good long now neigh max done) (hb : b.WellFormed)
    (hroom : (leasesAfter long now max done).length < max) :
    if 1 ≤ (allBytes long b.token).length ∧ (allBytes long b.token).length ≤ 26 then
      ∃ s, scanned long now max (done ++ [b]) = some s ∧ s.active = 0 ∧
        s.leases = leasesAfter long now max (done ++ [b])
    else scanned long now max (done ++ [b]) = none := by
  obtain ⟨s, hs, hactive, hleases⟩ := h.scan
  rw [scanned_append, hs, Option.bind_some,
    leaseLoop_block hb hactive (by rw [hleases]; exact hroom)]
  have hread := @unquotifyAndToHex_eq long b.token s.duid
  split at hread
  · rename_i hfit
    obtain ⟨duid, hduid, htext⟩ := hread
    rw [if_pos hfit, hduid]
    refine ⟨_, rfl, rfl, ?_⟩
    dsimp only
    rw [leasesAfter_append, addRecord, if_pos hroom, hleases, asRead_duid hfit.2 htext]
    rfl
  · rename_i hover
    rw [if_neg hover, hread]
    rfl

theorem scanned_full (h : Good long now neigh max done)
    (hfull : ¬(leasesAfter long now max done).length < max) :
    scanned long now max (done ++ [b]) = scanned long now max done ∧
      leasesAfter long now max (done ++ [b]) = leasesAfter long now max done := by
  obtain ⟨s, hs, -, hleases⟩ := h.scan
  constructor
  · rw [scanned_append, hs, Option.bind_some, leaseLoop_full (by rw [hleases]; exact hfull)]
  · rw [leasesAfter_append, addRecord, if_neg hfull]

/-- A block that goes together with the array before it keeps what is known. -/
theorem Good.step (h : Good long now neigh max done) (hb : b.WellFormed)
    (hfits : BlockFits long now neigh max (leasesAfter long now max done) b) :
    Good long now neigh max (done ++ [b]) := by
  rw [BlockFits] at hfits
  by_cases hroom : (leasesAfter long now max done).length < max
  · rw [if_pos hroom] at hfits
    obtain ⟨hsize, hduid, hneigh, hfits⟩ := hfits
    have hscan := scanned_block h hb hroom
    rw [if_pos hsize] at hscan
    refine ⟨hscan, ?_, ?_⟩
    · rw [leasesAfter_append, List.map_append]
      exact (right_asRead_iff h.right hroom).mpr ⟨hduid, hfits⟩
    · rw [leasesAfter_append]
      exact (allFine_iff h.fine hroom).mpr hneigh
  · rw [if_neg hroom] at hfits
    obtain ⟨hscan, hleases⟩ := scanned_full (b := b) h hroom
    refine ⟨?_, ?_, ?_⟩
    · rw [hscan, hleases]
      exact h.scan
    · rw [hleases, List.map_append]
      have hright := (right_addRecord_iff h.right).mpr hfits
      rwa [addRecord, if_neg hroom] at hright
    · rw [hleases]
      exact h.fine

/-- A file that is right after one more block: the block and the array before it go together. -/
theorem Good.fits (h : Good long now neigh max done) (hwf : ∀ x ∈ done ++ [b], x.WellFormed)
    (hright : RightFile long now neigh max (done ++ [b])) :
    BlockFits long now neigh max (leasesAfter long now max done) b := by
  obtain ⟨s, hs, leases, hcheck, hright⟩ := (rightFile_iff hwf).mp hright
  rw [List.map_append, List.map_singleton] at hright
  rw [BlockFits]
  by_cases hroom : (leasesAfter long now max done).length < max
  · rw [if_pos hroom]
    have hscan := scanned_block h (hwf b (by simp)) hroom
    split at hscan
    · rename_i hsize
      obtain ⟨s', hs', -, hleases⟩ := hscan
      obtain rfl := Option.some.inj (hs.symm.trans hs')
      rw [hleases, leasesAfter_append] at hcheck
      have hfine : AllFine neigh
          (addRecord max (leasesAfter long now max done) (b.asRead long now)) := by
        by_contra hbad
        rcases checkStatic_failed no_result hbad with hret | ⟨e, he, ⟨hstatic, hfailed⟩, hmem⟩
        · rw [hcheck] at hret
          exact nomatch hret
        · rw [hcheck] at hmem
          rw [addRecord, if_pos hroom] at he
          -- only the new record can be a static lease whose neighbour is not fine
          rcases mem_mergeLease he with rfl | he | hzero
          · obtain ⟨r, hr, hstate⟩ := hright.states _ hmem
            have haddr : (b.record long now).iaaddr = (b.asRead long now).iaaddr := rfl
            rw [lastRecord_append, if_pos haddr] at hr
            obtain rfl := Option.some.inj hr
            have hne : (b.record long now).active ≠ 0 := by
              change stateValue b.state ≠ 0
              exact fun hzero => absurd (hzero.symm.trans hstatic) (by decide)
            exact hne (congrArg Lease.active (hstate.2 hne)).symm
          · exact hfailed (h.fine e he hstatic)
          · exact absurd (hzero.symm.trans hstatic) (by decide)
      rw [checkStatic_fine no_result hfine] at hcheck
      obtain rfl := (Prod.mk.inj hcheck).2
      obtain ⟨hduid, hfits⟩ := (right_asRead_iff h.right hroom).mp hright
      exact ⟨hsize, hduid, (allFine_iff h.fine hroom).mp hfine, hfits⟩
    · rw [hs] at hscan
      exact absurd hscan (by simp)
  · rw [if_neg hroom]
    obtain ⟨hscan, -⟩ := scanned_full (b := b) h hroom
    obtain ⟨s', hs', -, hleases⟩ := h.scan
    obtain rfl := Option.some.inj (hs.symm.trans (hscan.trans hs'))
    rw [hleases, checkStatic_fine no_result h.fine] at hcheck
    obtain rfl := (Prod.mk.inj hcheck).2
    refine (right_addRecord_iff h.right).mp ?_
    rw [addRecord, if_neg hroom]
    exact hright

theorem good_nil : Good long now neigh max [] :=
  ⟨⟨_, rfl, rfl, rfl⟩, right_nil max, nofun⟩

/-- The array is right after each block of a file exactly if each block goes together with the
array before it. -/
theorem lease_file_iff (hwf : ∀ b ∈ blocks, b.WellFormed) :
    (∀ done, done <+: blocks → RightFile long now neigh max done) ↔
      ∀ done b, done ++ [b] <+: blocks →
        BlockFits long now neigh max (leasesAfter long now max done) b := by
  have hsub {done : List LeaseBlock} (h : done <+: blocks) : ∀ b ∈ done, b.WellFormed :=
    fun b hb => hwf b (h.subset hb)
  have hgood (hsteps : ∀ done b, done ++ [b] <+: blocks → Good long now neigh max done →
      BlockFits long now neigh max (leasesAfter long now max done) b) (done : List LeaseBlock) :
      done <+: blocks → Good long now neigh max done := by
    induction done using List.reverseRecOn with
    | nil => exact fun _ => good_nil
    | append_singleton done b ih =>
      intro hpre
      have hbefore := ih ((List.prefix_append done [b]).trans hpre)
      exact hbefore.step (hsub hpre b (by simp)) (hsteps done b hpre hbefore)
  constructor
  · intro hright done b hpre
    have hbefore := hgood (fun done b hpre h => h.fits (hsub hpre) (hright _ hpre)) done
      ((List.prefix_append done [b]).trans hpre)
    exact hbefore.fits (hsub hpre) (hright _ hpre)
  · intro hfits done hpre
    exact (hgood (fun done b hpre _ => hfits done b hpre) done hpre).rightFile (hsub hpre)

/-- A block for one client, with an end in seconds. -/
def block (iaaddr state : String) : LeaseBlock where
  duid := ascii "\"ABCDEFGH\""
  iaaddr := ascii iaaddr
  state := ascii state
  ends := .at (ascii "4") (ascii "1700000000") []
  others := fun _ => []

theorem block_wellFormed {iaaddr state : String} (hiaaddr : Word 45 blanks (ascii iaaddr))
    (hstate : Word 200 semicolon (ascii state)) : (block iaaddr state).WellFormed := by
  have hduid : Word 240 [] (ascii "\"ABCDEFGH\"") := ⟨by decide, forall_of_all rfl, by decide⟩
  refine ⟨hduid, hiaaddr, hstate, ?_, nofun⟩
  rintro word text tail hends
  obtain ⟨rfl, rfl, rfl⟩ := Ends.at.inj hends
  exact ⟨⟨by decide, forall_of_all rfl, by decide⟩, ⟨by decide, forall_of_all rfl, by decide⟩, nofun,
    Nat.zero_le _⟩

/-- A client that has an address, gets another one, and lets the first run out. -/
def moves : List LeaseBlock :=
  [block "2001:db8::1" "active", block "2001:db8::2" "active", block "2001:db8::1" "expired"]

theorem moves_wellFormed : ∀ b ∈ moves, b.WellFormed := by
  have hactive : Word 200 semicolon (ascii "active") := ⟨by decide, forall_of_all rfl, by decide⟩
  have hexpired : Word 200 semicolon (ascii "expired") := ⟨by decide, forall_of_all rfl, by decide⟩
  have hfirst : Word 45 blanks (ascii "2001:db8::1") := ⟨by decide, forall_of_all rfl, by decide⟩
  have hsecond : Word 45 blanks (ascii "2001:db8::2") := ⟨by decide, forall_of_all rfl, by decide⟩
  simp only [moves, List.forall_mem_cons]
  exact ⟨block_wellFormed hfirst hactive, block_wellFormed hsecond hactive,
    block_wellFormed hfirst hexpired, nofun⟩

theorem lease_file_moves :
    (∀ done, done <+: moves → RightFile .bits64 1600000000 (fun _ => none) 8 done) ↔
      ∀ done b, done ++ [b] <+: moves → BlockFits .bits64 1600000000 (fun _ => none) 8
        (leasesAfter .bits64 1600000000 8 done) b :=
  lease_file_iff moves_wellFormed

/-- The record that has run out is that of the old address, and makes the new one inactive. -/
theorem current_lease_deactivated :
    (∀ b ∈ moves, b.WellFormed) ∧ ¬RightFile .bits64 1600000000 (fun _ => none) 8 moves := by
  refine ⟨moves_wellFormed, ?_⟩
  rintro ⟨leases, hres, hright⟩
  have hvalue : rtkGetDhcpv6LeaseInfo .bits64 1600000000 (fun _ => none) 8
      (some (fileText moves)) =
      some ⟨0, [⟨ascii "2001:db8::2", ascii "45:46:47:48", 0, 100000000⟩], some 1⟩ := by
    decide +kernel
  have hleases : [⟨ascii "2001:db8::2", ascii "45:46:47:48", 0, 100000000⟩] = leases :=
    congrArg Result.leases (Option.some.inj (hvalue.symm.trans hres))
  obtain ⟨r, hr, hstate⟩ := hright.states _ (by rw [← hleases]; exact List.mem_cons_self)
  have hlast : lastRecord (moves.map (LeaseBlock.record .bits64 1600000000))
      (ascii "2001:db8::2") =
      some ⟨ascii "2001:db8::2", ascii "45:46:47:48", 1, 100000000⟩ := by
    decide +kernel
  obtain rfl := Option.some.inj (hlast.symm.trans hr)
  have hactive : (0 : Nat) = 1 := congrArg Lease.active (hstate.2 (by decide))
  exact absurd hactive (by decide)

end LeaseHistory

import BoaGateway.ClusterServer

/-!
# What a frame can do to the server

The lengths of the options are subtracted before they are looked at, and the index of a packet
selects a bit of a mask without a test. A frame does no harm exactly when every option that the
loop comes to has its bytes in the frame and its room in the entry.
-/

namespace FrameSafety

open ByteBlocks ClusterOptions ClusterServer

variable {σ : Type} {B : Build} {M : MibApi σ}

theorem ntohsAt_none {frame : Bytes} {off : Nat} :
    ntohsAt frame off = none ↔ frame.length < off + 2 := by
  rw [ntohsAt, Option.map_eq_none_iff, Block.read_eq_none_iff]

theorem ntohsAt_some (frame : Bytes) (off : Nat) (h : off + 2 ≤ frame.length) :
    ∃ v, ntohsAt frame off = some v := by
  rw [← Option.isSome_iff_exists, ← Option.ne_none_iff_isSome, Ne, ntohsAt_none]
  omega

theorem ntohsAt_length {frame : Bytes} {off v : Nat} (h : ntohsAt frame off = some v) :
    off + 2 ≤ frame.length := by
  by_contra hlt
  rw [ntohsAt_none.mpr (by omega)] at h
  cases h

theorem ntohsAt_lt {frame : Bytes} {off v : Nat} (h : ntohsAt frame off = some v) :
    v < 2 ^ 16 := by
  obtain ⟨b, -, rfl⟩ := Option.map_eq_some_iff.mp h
  have hlt := leValue_lt b.1.reverse
  rw [List.length_reverse, b.2] at hlt
  exact hlt

theorem ntohsAt_drop (frame : Bytes) (ptr off : Nat) :
    ntohsAt frame (ptr + off) = ntohsAt (frame.drop ptr) off := by
  by_cases hlen : ptr + off + 2 ≤ frame.length
  · obtain ⟨b, hb⟩ := (Block.ofBytes frame).read_fits hlen
    have hlen' : off + 2 ≤ (frame.drop ptr).length := by
      rw [List.length_drop]
      omega
    obtain ⟨c, hc⟩ := (Block.ofBytes (frame.drop ptr)).read_fits hlen'
    have hsame : b.1 = c.1 := by
      rw [(Block.read_eq_some_iff.mp hb).2, (Block.read_eq_some_iff.mp hc).2]
      change (frame.drop (ptr + off)).take 2 = ((frame.drop ptr).drop off).take 2
      rw [List.drop_drop]
    rw [ntohsAt, ntohsAt, hb, hc, Option.map_some, Option.map_some, hsame]
  · rw [ntohsAt_none.mpr (by omega), ntohsAt_none.mpr (by rw [List.length_drop]; omega)]

theorem isMasked_some {mask : Block 8} {idx : Nat} :
    (∃ masked, isMasked mask idx = some masked) ↔ idx < 64 := by
  rw [isMasked]
  constructor
  · rintro ⟨masked, hmasked⟩
    obtain ⟨b, hb, -⟩ := Option.map_eq_some_iff.mp hmasked
    have hin := (Block.read_eq_some_iff.mp hb).1
    omega
  · intro hlt
    have hin : idx / 8 + 1 ≤ 8 := by omega
    obtain ⟨b, hb⟩ := mask.read_fits hin
    rw [hb]
    exact ⟨_, rfl⟩

theorem maskIdx_some {mask : Block 8} {idx : Nat} (h : idx < 64) :
    ∃ mask', maskIdx mask idx = some mask' := by
  have hin : idx / 8 + 1 ≤ 8 := by omega
  obtain ⟨b, hb⟩ := mask.read_fits hin
  rw [maskIdx, hb, Option.bind_some]
  apply Block.write_fits
  rw [List.length_singleton]
  omega

theorem allReceivedFrom_some {mask : Block 8} {n i : Nat} (h : i + n ≤ 64) :
    ∃ all, allReceivedFrom mask n i = some all := by
  induction n generalizing i with
  | zero => exact ⟨true, rfl⟩
  | succ n ih =>
    obtain ⟨masked, hmasked⟩ := isMasked_some.mpr (show i < 64 by omega)
    rw [allReceivedFrom, hmasked, Option.bind_some]
    cases masked with
    | true => exact ih (by omega)
    | false => exact ⟨false, rfl⟩

theorem allReceived_some {s : Server σ} (h : s.totalcnt ≤ 64) :
    ∃ all, allReceived s = some all := by
  rw [allReceived]
  split
  · exact allReceivedFrom_some (by omega)
  · exact ⟨false, rfl⟩

/-- The bytes that are read, of so many that the frame has from the option on, and the room of
what is written. -/
def FormFits (B : Build) (form : Form) (optLen left room : Nat) : Prop :=
  match form with
  | .char => 5 ≤ left
  | .text => 4 ≤ optLen ∧ optLen ≤ left ∧ optLen ≤ room + 4
  | .int => 8 ≤ left
  | .ulong => B.ulongSize + 4 ≤ left ∧ B.ulongSize ≤ room

/-- An option reads inside the frame and writes inside the member it sets. -/
def Fits (B : Build) (t : OptionType) (optLen left : Nat) : Prop :=
  match t with
  | .conf _ _ (some f) => FormFits B f.form optLen left f.size
  | .item _ item => FormFits B item.form optLen left 4
  | .chain _ c => optLen = B.recordSize c + 4 → optLen ≤ left
  | _ => True

theorem swap_length (b : Bytes) : (B.swap b).length = b.length := by
  rw [Build.swap]
  split
  · rfl
  · exact List.length_reverse

theorem read_map_some {n room : Nat} {data : Bytes} {g : Block n → Bytes}
    (hg : ∀ b, (g b).length = n) :
    (∃ value, ((Block.ofBytes data).read 0 n).map g = some value ∧ value.length ≤ room) ↔
      n ≤ data.length ∧ n ≤ room := by
  constructor
  · rintro ⟨value, hvalue, hlen⟩
    obtain ⟨b, hb, rfl⟩ := Option.map_eq_some_iff.mp hvalue
    have hin := (Block.read_eq_some_iff.mp hb).1
    rw [hg] at hlen
    omega
  · rintro ⟨hdata, hroom⟩
    have hin : 0 + n ≤ data.length := by omega
    obtain ⟨b, hb⟩ := (Block.ofBytes data).read_fits hin
    refine ⟨g b, by rw [hb, Option.map_some], ?_⟩
    rw [hg]
    exact hroom

theorem payload_some {form : Form} {optLen room : Nat} {data : Bytes}
    (hchar : form = .char → 1 ≤ room) (hint : form = .int → 4 ≤ room) :
    (∃ value, payload B form optLen data = some value ∧ value.length ≤ room) ↔
      FormFits B form optLen (data.length + 4) room := by
  cases form with
  | char =>
    have hroom := hchar rfl
    rw [FormFits, payload, read_map_some fun b => b.2]
    omega
  | text =>
    rw [FormFits, payload]
    by_cases hmin : optLen < 4
    · rw [if_pos hmin]
      constructor
      · rintro ⟨value, hvalue, -⟩
        cases hvalue
      · rintro ⟨hfour, -⟩
        omega
    · rw [if_neg hmin, read_map_some fun b => b.2]
      omega
  | int =>
    have hroom := hint rfl
    rw [FormFits, payload, read_map_some fun b => (swap_length b.1).trans b.2]
    omega
  | ulong =>
    rw [FormFits, payload, read_map_some fun b => (swap_length b.1).trans b.2]
    omega

theorem setField_some {p : Parser σ} {f : Field} {optLen : Nat} {data : Bytes} :
    (∃ p', setField B M p f optLen data = some p') ↔
      FormFits B f.form optLen (data.length + 4) f.size := by
  have hchar : f.form = .char → 1 ≤ f.size := by cases f <;> decide
  have hint : f.form = .int → 4 ≤ f.size := by cases f <;> decide
  rw [← payload_some hchar hint, setField]
  constructor
  · rintro ⟨p', hset⟩
    obtain ⟨value, hvalue, hset⟩ := Option.bind_eq_some_iff.mp hset
    obtain ⟨b, hb, -⟩ := Option.map_eq_some_iff.mp hset
    have hin := Block.write_length hb
    exact ⟨value, hvalue, by omega⟩
  · rintro ⟨value, hvalue, hlen⟩
    have hin : 0 + value.length ≤ f.size := by omega
    obtain ⟨b, hb⟩ := (Block.zeros f.size).write_fits hin
    rw [hvalue, Option.bind_some, hb]
    exact ⟨_, rfl⟩

theorem setItem_some {p : Parser σ} {item : Item} {optLen : Nat} {data : Bytes} :
    (∃ p', setItem B M p item optLen data = some p') ↔
      FormFits B item.form optLen (data.length + 4) 4 := by
  have htext : item.form = .char ∨ item.form = .int := by cases item <;> decide
  rw [← payload_some (fun _ => by decide) (fun _ => Nat.le_refl 4), setItem]
  constructor
  · rintro ⟨p', hset⟩
    obtain ⟨value, hvalue, -⟩ := Option.map_eq_some_iff.mp hset
    refine ⟨value, hvalue, ?_⟩
    rcases htext with hform | hform
    · rw [hform] at hvalue
      obtain ⟨b, -, rfl⟩ := Option.map_eq_some_iff.mp hvalue
      rw [b.2]
      decide
    · rw [hform] at hvalue
      obtain ⟨b, -, rfl⟩ := Option.map_eq_some_iff.mp hvalue
      rw [swap_length, b.2]
  · rintro ⟨value, hvalue, -⟩
    rw [hvalue]
    exact ⟨_, rfl⟩

/-- The bit of a chain lies in the mask. -/
theorem chain_index {type wlan : Nat} {c : Chain} (h : optionType B type = .chain wlan c) :
    type - mibChainStart B - 1 < 64 := by
  have hshort : (chainTypes B).length ≤ 10 := by
    rw [chainTypes]
    cases B.urlBlocking <;> cases B.remoteAccess <;> exact Nat.le_of_ble_eq_true rfl
  have hpos : 1 ≤ (valueTypes B).length := by
    rw [valueTypes, List.length_append]
    exact Nat.le_add_left 1 _
  rw [optionType] at h
  split at h
  · split at h <;> cases h
  · split at h
    · have hsome : type - firstValue < (valueTypes B ++ chainTypes B).length := by
        by_contra hout
        rw [List.getElem?_eq_none (Nat.le_of_not_lt hout)] at h
        cases h
      rw [List.length_append] at hsome
      rw [mibChainStart]
      omega
    · cases h

theorem clearFirst_some {p : Parser σ} {type : Nat} {c : Chain}
    (h : type - mibChainStart B - 1 < 64) : ∃ p', clearFirst B M p type c = some p' := by
  obtain ⟨masked, hmasked⟩ := isMasked_some.mpr h
  dsimp only [clearFirst]
  rw [hmasked, Option.bind_some]
  cases masked with
  | true => exact ⟨p, rfl⟩
  | false =>
    rw [if_neg Bool.false_ne_true]
    obtain ⟨mask, hmask⟩ := maskIdx_some h
    rw [hmask]
    exact ⟨_, rfl⟩

theorem addRecord_some {p : Parser σ} {type optLen : Nat} {c : Chain} {data : Bytes}
    (h : type - mibChainStart B - 1 < 64) :
    (∃ res, addRecord B M p type optLen c data = some res) ↔
      (optLen = B.recordSize c + 4 → optLen ≤ data.length + 4) := by
  rw [addRecord]
  by_cases hlen : optLen = B.recordSize c + 4
  · obtain ⟨p', hclear⟩ := clearFirst_some (M := M) (p := p) (c := c) h
    rw [if_neg (not_not_intro hlen), hclear, Option.bind_some]
    constructor
    · rintro ⟨res, hres⟩ -
      obtain ⟨b, hb, -⟩ := Option.map_eq_some_iff.mp hres
      have hin := (Block.read_eq_some_iff.mp hb).1
      omega
    · intro hfits
      have hin : 0 + B.recordSize c ≤ data.length := by
        have hle := hfits hlen
        omega
      obtain ⟨b, hb⟩ := (Block.ofBytes data).read_fits hin
      rw [hb]
      exact ⟨_, rfl⟩
  · rw [if_pos hlen]
    exact ⟨fun _ heq => absurd heq hlen, fun _ => ⟨_, rfl⟩⟩

/-- An option does no harm exactly when it fits. -/
theorem handleOption_some {p : Parser σ} {id type optLen : Nat} {data : Bytes} :
    (∃ res, handleOption B M p id type optLen data = some res) ↔
      Fits B (optionType B type) optLen (data.length + 4) := by
  rw [handleOption]
  cases htype : optionType B type with
  | conf wlan index f =>
    cases f with
    | none => exact ⟨fun _ => trivial, fun _ => ⟨_, rfl⟩⟩
    | some f =>
      dsimp only
      rw [Fits, ← setField_some]
      constructor
      · rintro ⟨res, hres⟩
        obtain ⟨p', hset, -⟩ := Option.map_eq_some_iff.mp hres
        exact ⟨p', hset⟩
      · rintro ⟨p', hset⟩
        exact ⟨(p', true), by rw [hset, Option.map_some]⟩
  | between => exact ⟨fun _ => trivial, fun _ => ⟨_, rfl⟩⟩
  | item wlan item =>
    dsimp only
    rw [Fits, ← setItem_some]
    constructor
    · rintro ⟨res, hres⟩
      obtain ⟨p', hset, -⟩ := Option.map_eq_some_iff.mp hres
      exact ⟨p', hset⟩
    · rintro ⟨p', hset⟩
      exact ⟨(p', true), by rw [hset, Option.map_some]⟩
  | chain wlan c => exact addRecord_some (chain_index htype)
  | idxEnd => exact ⟨fun _ => trivial, fun _ => ⟨_, rfl⟩⟩
  | unknown => exact ⟨fun _ => trivial, fun _ => ⟨_, rfl⟩⟩

/-- The MIB before a record of a chain is added. The first record clears the chain, and the numbers
of key holders with theirs. -/
def chainStart (B : Build) (M : MibApi σ) (p : Parser σ) (type wlan : Nat) (c : Chain) : σ :=
  let q := (p.setWlanIdx wlan).setMib (M.chainClear p.server.mib wlan c)
  if isMasked p.server.chainidmask (type - mibChainStart B - 1) = some true then p.server.mib
  else if c = .wlanFtkh then (resetAllKhNum B M q).server.mib else q.server.mib

/-- The MIB with a record. A key holder goes to the interface it names, if that has room. -/
def withRecord (B : Build) (M : MibApi σ) (mib : σ) (wlan : Nat) (c : Chain) (record : Bytes) : σ :=
  if c = .wlanFtkh then
    let wlanIdx := ((record[0]?).getD 0).toNat
    let intfIdx := ((record[1]?).getD 0).toNat
    match M.mbssibGet mib wlanIdx intfIdx with
    | none => mib
    | some e =>
      if maxVwlanFtkhNum ≤ e.ftKhNum then mib
      else M.mbssibUpdate (M.chainAdd mib wlanIdx c record) wlanIdx intfIdx
        { e with ftKhNum := e.ftKhNum + 1 }
  else M.chainAdd mib wlan c (B.toRecord c record)

/-- What an option brings is there already: an entry with the member's bytes, a value, or a chain
that is the same when it has been cleared and has the record again. -/
def Stored (B : Build) (M : MibApi σ) (p : Parser σ) (type optLen : Nat) (data : Bytes) : Prop :=
  match optionType B type with
  | .conf wlan index (some f) => ∀ value ∈ payload B f.form optLen data,
      ∀ b ∈ (Block.zeros f.size).write 0 value,
        M.mbssibUpdate p.server.mib wlan index
          ((wlanGetEntry B M p.server.mib wlan index p.entry).put f b) = p.server.mib
  | .item wlan item => ∀ value ∈ payload B item.form optLen data,
      value = (M.mibGet p.server.mib wlan item).getD (p.value item.form) ∨
        M.mibSet p.server.mib wlan item value = p.server.mib
  | .chain wlan c => optLen = B.recordSize c + 4 →
      ∀ record ∈ (Block.ofBytes data).read 0 (B.recordSize c),
        withRecord B M (chainStart B M p type wlan c) wlan c record.1 = p.server.mib
  | _ => True

theorem clearFirst_mib {p p' : Parser σ} {type wlan : Nat} {c : Chain}
    (h : clearFirst B M (p.setWlanIdx wlan) type c = some p') :
    p'.server.mib = chainStart B M p type wlan c := by
  obtain ⟨masked, hmasked, h⟩ := Option.bind_eq_some_iff.mp h
  have hmask : isMasked p.server.chainidmask (type - mibChainStart B - 1) = some masked := hmasked
  rw [chainStart, hmask]
  cases masked with
  | true =>
    obtain rfl := Option.some.inj h
    rfl
  | false =>
    obtain ⟨mask, -, rfl⟩ := Option.map_eq_some_iff.mp h
    have hfirst : ¬some false = some true := by decide
    rw [if_neg hfirst]
    by_cases hc : c = .wlanFtkh
    · rw [if_pos hc, if_pos hc]
      rfl
    · rw [if_neg hc, if_neg hc]
      rfl

theorem clearFirst_wlanIdx {p p' : Parser σ} {type : Nat} {c : Chain} (hc : c ≠ .wlanFtkh)
    (h : clearFirst B M p type c = some p') : p'.server.wlanIdx = p.server.wlanIdx := by
  obtain ⟨masked, -, h⟩ := Option.bind_eq_some_iff.mp h
  cases masked with
  | true =>
    obtain rfl := Option.some.inj h
    rfl
  | false =>
    obtain ⟨mask, -, rfl⟩ := Option.map_eq_some_iff.mp h
    rw [if_neg hc]
    rfl

theorem addFtkh_mib (p : Parser σ) (wlan : Nat) (record : Bytes) :
    (addFtkh M p record).1.server.mib = withRecord B M p.server.mib wlan .wlanFtkh record := by
  dsimp only [addFtkh, withRecord]
  rw [if_pos rfl]
  have hsame : M.mbssibGet (p.setWlanIdx ((record[0]?).getD 0).toNat).server.mib
      ((record[0]?).getD 0).toNat ((record[1]?).getD 0).toNat =
        M.mbssibGet p.server.mib ((record[0]?).getD 0).toNat ((record[1]?).getD 0).toNat := rfl
  rw [hsame]
  cases M.mbssibGet p.server.mib ((record[0]?).getD 0).toNat ((record[1]?).getD 0).toNat with
  | none => rfl
  | some e =>
    dsimp only
    split
    · rfl
    · rfl

theorem addRecord_mib {p p' : Parser σ} {type optLen wlan : Nat} {c : Chain} {data : Bytes}
    {go : Bool} (h : addRecord B M (p.setWlanIdx wlan) type optLen c data = some (p', go)) :
    p'.server.mib = p.server.mib ↔ (optLen = B.recordSize c + 4 →
      ∀ record ∈ (Block.ofBytes data).read 0 (B.recordSize c),
        withRecord B M (chainStart B M p type wlan c) wlan c record.1 = p.server.mib) := by
  rw [addRecord] at h
  split at h
  · rename_i hlen
    obtain ⟨rfl, -⟩ := Prod.mk.inj (Option.some.inj h)
    exact ⟨fun _ heq => absurd heq hlen, fun _ => rfl⟩
  · rename_i hlen
    obtain ⟨q, hclear, h⟩ := Option.bind_eq_some_iff.mp h
    obtain ⟨record, hrecord, h⟩ := Option.map_eq_some_iff.mp h
    have hmib : p'.server.mib = withRecord B M (chainStart B M p type wlan c) wlan c record.1 := by
      rw [← clearFirst_mib hclear]
      by_cases hc : c = .wlanFtkh
      · subst hc
        rw [if_pos rfl] at h
        rw [← addFtkh_mib q wlan record.1, h]
      · rw [if_neg hc] at h
        obtain ⟨rfl, -⟩ := Prod.mk.inj h
        rw [withRecord, if_neg hc, clearFirst_wlanIdx hc hclear]
        rfl
    rw [hmib]
    constructor
    · intro heq _ record' hrecord'
      obtain rfl := Option.some.inj (hrecord.symm.trans hrecord')
      exact heq
    · intro hall
      exact hall (not_not.mp hlen) record hrecord

theorem setItem_mib {p p' : Parser σ} {item : Item} {optLen wlan : Nat} {data : Bytes}
    (h : setItem B M (p.setWlanIdx wlan) item optLen data = some p') :
    p'.server.mib = p.server.mib ↔ ∀ value ∈ payload B item.form optLen data,
      value = (M.mibGet p.server.mib wlan item).getD (p.value item.form) ∨
        M.mibSet p.server.mib wlan item value = p.server.mib := by
  obtain ⟨value, hvalue, hset⟩ := Option.map_eq_some_iff.mp h
  have hmib : p'.server.mib =
      if (M.mibGet p.server.mib wlan item).getD (p.value item.form) ≠ value then
        M.mibSet p.server.mib wlan item value
      else p.server.mib := by
    rw [← hset]
    exact apply_ite (fun q : Parser σ => q.server.mib) _ _ _
  rw [hmib]
  constructor
  · intro hsame value' hvalue'
    obtain rfl := Option.some.inj (hvalue.symm.trans hvalue')
    by_cases hheld : (M.mibGet p.server.mib wlan item).getD (p.value item.form) = value
    · exact .inl hheld.symm
    · rw [if_pos hheld] at hsame
      exact .inr hsame
  · intro hall
    rcases hall value hvalue with hheld | hset
    · exact if_neg (not_not_intro hheld.symm)
    · rw [hset]
      exact ite_self _

/-- An option changes the MIB exactly when what it brings is not there. -/
theorem handleOption_mib {p p' : Parser σ} {id type optLen : Nat} {data : Bytes} {go : Bool}
    (h : handleOption B M p id type optLen data = some (p', go)) :
    p'.server.mib = p.server.mib ↔ Stored B M p type optLen data := by
  rw [handleOption] at h
  rw [Stored]
  cases htype : optionType B type with
  | conf wlan index f =>
    rw [htype] at h
    cases f with
    | none =>
      cases h
      exact ⟨fun _ => trivial, fun _ => rfl⟩
    | some f =>
      obtain ⟨q, hset, heq⟩ := Option.map_eq_some_iff.mp h
      obtain ⟨rfl, -⟩ := Prod.mk.inj heq
      obtain ⟨value, hvalue, hset⟩ := Option.bind_eq_some_iff.mp hset
      obtain ⟨b, hb, rfl⟩ := Option.map_eq_some_iff.mp hset
      constructor
      · intro hsame value' hvalue' b' hb'
        obtain rfl := Option.some.inj (hvalue.symm.trans hvalue')
        obtain rfl := Option.some.inj (hb.symm.trans hb')
        exact hsame
      · intro hall
        exact hall value hvalue b hb
  | between =>
    rw [htype] at h
    cases h
    exact ⟨fun _ => trivial, fun _ => rfl⟩
  | item wlan item =>
    rw [htype] at h
    obtain ⟨q, hset, heq⟩ := Option.map_eq_some_iff.mp h
    obtain ⟨rfl, -⟩ := Prod.mk.inj heq
    exact setItem_mib hset
  | chain wlan c =>
    rw [htype] at h
    exact addRecord_mib h
  | idxEnd =>
    rw [htype] at h
    cases h
    exact ⟨fun _ => trivial, fun _ => rfl⟩
  | unknown =>
    rw [htype] at h
    cases h
    exact ⟨fun _ => trivial, fun _ => rfl⟩

theorem setField_head {p p' : Parser σ} {f : Field} {optLen : Nat} {data : Bytes}
    (h : setField B M p f optLen data = some p') : p'.server.head = p.server.head := by
  obtain ⟨value, -, h⟩ := Option.bind_eq_some_iff.mp h
  obtain ⟨b, -, rfl⟩ := Option.map_eq_some_iff.mp h
  rfl

theorem setItem_head {p p' : Parser σ} {item : Item} {optLen : Nat} {data : Bytes}
    (h : setItem B M p item optLen data = some p') : p'.server.head = p.server.head := by
  obtain ⟨value, -, rfl⟩ := Option.map_eq_some_iff.mp h
  dsimp only
  split <;> rfl

theorem resetKhNum_server (p : Parser σ) (wlanIdx index : Nat) :
    ∃ mib, (resetKhNum M p wlanIdx index).server = { p.server with mib } := by
  rw [resetKhNum]
  split
  · exact ⟨p.server.mib, rfl⟩
  · split
    · exact ⟨_, rfl⟩
    · exact ⟨p.server.mib, rfl⟩

theorem resetAllKhNum_server (p : Parser σ) :
    ∃ mib, (resetAllKhNum B M p).server = { p.server with mib } := by
  rw [resetAllKhNum]
  generalize ((List.range B.numWlanInterface).flatMap fun i =>
    (List.range (B.maxWlanVap + B.repeater.toNat)).map fun j => (i, j + 1)) = places
  induction places generalizing p with
  | nil => exact ⟨p.server.mib, rfl⟩
  | cons ij places ih =>
    obtain ⟨mib, hone⟩ := resetKhNum_server (M := M) p ij.1 ij.2
    obtain ⟨mib', hrest⟩ := ih (resetKhNum M p ij.1 ij.2)
    refine ⟨mib', ?_⟩
    rw [List.foldl_cons, hrest, hone]

theorem clearFirst_head {p p' : Parser σ} {type : Nat} {c : Chain}
    (h : clearFirst B M p type c = some p') : p'.server.head = p.server.head := by
  obtain ⟨masked, -, h⟩ := Option.bind_eq_some_iff.mp h
  cases masked with
  | true => exact congrArg (fun q => q.server.head) (Option.some.inj h).symm
  | false =>
    obtain ⟨mask, -, rfl⟩ := Option.map_eq_some_iff.mp h
    by_cases hc : c = .wlanFtkh
    · obtain ⟨mib, hreset⟩ :=
        resetAllKhNum_server (B := B) (M := M)
          (p.setMib (M.chainClear p.server.mib p.server.wlanIdx c))
      rw [if_pos hc, hreset]
      rfl
    · rw [if_neg hc]
      rfl

theorem addFtkh_head (p : Parser σ) (record : Bytes) :
    (addFtkh M p record).1.server.head = p.server.head := by
  dsimp only [addFtkh]
  split
  · rfl
  · split <;> rfl

theorem addRecord_head {p p' : Parser σ} {type optLen : Nat} {c : Chain} {data : Bytes} {go : Bool}
    (h : addRecord B M p type optLen c data = some (p', go)) : p'.server.head = p.server.head := by
  rw [addRecord] at h
  split at h
  · cases h
    rfl
  · obtain ⟨q, hclear, h⟩ := Option.bind_eq_some_iff.mp h
    obtain ⟨record, -, h⟩ := Option.map_eq_some_iff.mp h
    rw [← clearFirst_head hclear]
    split at h
    · rw [← addFtkh_head q record.1, h]
    · cases h
      rfl

/-- Only the last option sets the number of packets. -/
theorem handleOption_head {p p' : Parser σ} {id type optLen : Nat} {data : Bytes} {go : Bool}
    (h : handleOption B M p id type optLen data = some (p', go)) :
    p'.server.head = p.server.head ∨
      optionType B type = .idxEnd ∧
        p'.server.head = (p.server.curSeq, p.server.pktidmask, id + 1) := by
  rw [handleOption] at h
  cases htype : optionType B type with
  | conf wlan index f =>
    rw [htype] at h
    left
    cases f with
    | none =>
      cases h
      rfl
    | some f =>
      obtain ⟨q, hset, heq⟩ := Option.map_eq_some_iff.mp h
      cases heq
      exact (setField_head hset).trans rfl
  | between =>
    rw [htype] at h
    cases h
    exact .inl rfl
  | item wlan item =>
    rw [htype] at h
    obtain ⟨q, hset, heq⟩ := Option.map_eq_some_iff.mp h
    cases heq
    exact .inl ((setItem_head hset).trans rfl)
  | chain wlan c =>
    rw [htype] at h
    exact .inl ((addRecord_head h).trans rfl)
  | idxEnd =>
    rw [htype] at h
    cases h
    exact .inr ⟨rfl, rfl⟩
  | unknown =>
    rw [htype] at h
    cases h
    exact .inl rfl

theorem turn_option {frame : Bytes} {id type optLen : Nat} (wlan : Nat) {c : Cursor σ}
    {p' : Parser σ} {go : Bool} (hlen : 4 ≤ c.len) (htype : ntohsAt (frame.drop c.ptr) 0 = some type)
    (hopt : ntohsAt (frame.drop c.ptr) 2 = some optLen)
    (hdone : handleOption B M c.parser id type optLen ((frame.drop c.ptr).drop 4) =
      some (p', go)) :
    turn B M frame id wlan c = some (if go then
      .more ⟨p', c.ptr + optLen, (c.len + 2 ^ 16 - optLen) % 2 ^ 16⟩
      else .done { p'.server with wlanIdx := wlan }) := by
  have hzero : c.len ≠ 0 := by omega
  rw [List.drop_drop] at hdone
  rw [turn, if_neg hzero, if_neg (Nat.not_lt.mpr hlen), ntohsAt_drop, hopt, Option.bind_some]
  rw [← Nat.add_zero c.ptr, ntohsAt_drop, htype, Option.bind_some, Nat.add_zero, hdone]
  rfl

theorem turn_inv {frame : Bytes} {id wlan : Nat} {c : Cursor σ} {t : Turn σ}
    (hlen : 4 ≤ c.len) (h : turn B M frame id wlan c = some t) :
    ∃ type optLen p' go, ntohsAt (frame.drop c.ptr) 0 = some type ∧
      ntohsAt (frame.drop c.ptr) 2 = some optLen ∧
      handleOption B M c.parser id type optLen ((frame.drop c.ptr).drop 4) = some (p', go) := by
  have hzero : c.len ≠ 0 := by omega
  rw [turn, if_neg hzero, if_neg (Nat.not_lt.mpr hlen)] at h
  obtain ⟨optLen, hopt, h⟩ := Option.bind_eq_some_iff.mp h
  obtain ⟨type, htype, h⟩ := Option.bind_eq_some_iff.mp h
  obtain ⟨⟨p', go⟩, hdone, -⟩ := Option.map_eq_some_iff.mp h
  rw [ntohsAt_drop] at hopt
  rw [← Nat.add_zero c.ptr, ntohsAt_drop] at htype
  rw [← List.drop_drop] at hdone
  exact ⟨type, optLen, p', go, htype, hopt, hdone⟩

theorem turn_short (frame : Bytes) (id wlan : Nat) {c : Cursor σ} (hlen : c.len < 4) :
    ∃ wlanIdx, turn B M frame id wlan c = some (.done { c.parser.server with wlanIdx }) := by
  rw [turn, if_pos hlen]
  by_cases hzero : c.len = 0
  · rw [if_pos hzero]
    exact ⟨wlan, rfl⟩
  · rw [if_neg hzero]
    exact ⟨c.parser.server.wlanIdx, rfl⟩

/-- The MIBs that the loop goes through. -/
inductive Sees (B : Build) (M : MibApi σ) (frame : Bytes) (id wlan : Nat) :
    Cursor σ → σ → Prop where
  | here (c : Cursor σ) : Sees B M frame id wlan c c.parser.server.mib
  | more {c c' : Cursor σ} {mib : σ} : turn B M frame id wlan c = some (.more c') →
    Sees B M frame id wlan c' mib → Sees B M frame id wlan c mib
  | done {c : Cursor σ} {s : Server σ} : turn B M frame id wlan c = some (.done s) →
    Sees B M frame id wlan c s.mib

/-- The options that the loop comes to lie in the rest of the frame and fit, and each but the
last one takes the loop on. In a quiet frame what they bring is there already. -/
inductive Orderly (B : Build) (M : MibApi σ) (id : Nat) (quiet : Prop) :
    Parser σ → Bytes → Prop where
  | short {p : Parser σ} {rest : Bytes} : rest.length < 4 → Orderly B M id quiet p rest
  | last {p p' : Parser σ} {rest : Bytes} {type optLen : Nat} :
    ntohsAt rest 0 = some type → ntohsAt rest 2 = some optLen →
    Fits B (optionType B type) optLen rest.length →
    handleOption B M p id type optLen (rest.drop 4) = some (p', false) →
    (quiet → Stored B M p type optLen (rest.drop 4)) → Orderly B M id quiet p rest
  | option {p p' : Parser σ} {rest : Bytes} {type optLen : Nat} :
    ntohsAt rest 0 = some type → ntohsAt rest 2 = some optLen →
    Fits B (optionType B type) optLen rest.length →
    handleOption B M p id type optLen (rest.drop 4) = some (p', true) →
    (quiet → Stored B M p type optLen (rest.drop 4)) → 0 < optLen → optLen ≤ rest.length →
    Orderly B M id quiet p' (rest.drop optLen) → Orderly B M id quiet p rest

theorem loop_of_orderly {frame : Bytes} {id : Nat} (wlan : Nat) {quiet : Prop} {p : Parser σ}
    {rest : Bytes} (h : Orderly B M id quiet p rest) (hmax : rest.length < 2 ^ 16) :
    ∀ c : Cursor σ, c.parser = p → frame.drop c.ptr = rest → c.len = rest.length →
      ∃ fuel s, parseLoop B M frame id wlan fuel c = some s ∧
        (s.totalcnt = p.server.totalcnt ∨ s.totalcnt = id + 1) ∧
        (quiet → ∀ mib, Sees B M frame id wlan c mib → mib = p.server.mib) := by
  induction h with
  | @short p rest hshort =>
    intro c hp hrest hlen
    obtain ⟨wlanIdx, hturn⟩ :=
      turn_short (B := B) (M := M) frame id wlan (c := c) (by omega)
    subst hp
    refine ⟨1, { c.parser.server with wlanIdx }, ?_, .inl rfl, fun _ mib hsees => ?_⟩
    · rw [parseLoop, hturn]
      rfl
    · cases hsees with
      | here => rfl
      | more hmore _ =>
        rw [hturn] at hmore
        cases hmore
      | done hdone =>
        rw [hturn] at hdone
        cases hdone
        rfl
  | @last p p' rest type optLen htype hopt _ hhandle hquiet =>
    intro c hp hrest hlen
    subst hp hrest
    have hfour : 4 ≤ c.len := by
      have hle := ntohsAt_length hopt
      omega
    have hturn := turn_option wlan hfour htype hopt hhandle
    refine ⟨1, { p'.server with wlanIdx := wlan }, ?_, ?_, fun hq mib hsees => ?_⟩
    · rw [parseLoop, hturn]
      rfl
    · rcases handleOption_head hhandle with hhead | ⟨-, hhead⟩
      · exact .inl (congrArg (fun x => x.2.2) hhead)
      · exact .inr (congrArg (fun x => x.2.2) hhead)
    · cases hsees with
      | here => rfl
      | more hmore _ =>
        rw [hturn] at hmore
        cases hmore
      | done hdone =>
        rw [hturn] at hdone
        cases hdone
        exact (handleOption_mib hhandle).mpr (hquiet hq)
  | @option p p' rest type optLen htype hopt _ hhandle hquiet hpos hin _ ih =>
    intro c hp hrest hlen
    subst hp hrest
    have hfour : 4 ≤ c.len := by
      have hle := ntohsAt_length hopt
      omega
    have hturn := turn_option wlan hfour htype hopt hhandle
    rw [if_pos rfl] at hturn
    have hwrap : (c.len + 2 ^ 16 - optLen) % 2 ^ 16 = ((frame.drop c.ptr).drop optLen).length := by
      rw [List.length_drop]
      omega
    have hless : ((frame.drop c.ptr).drop optLen).length < 2 ^ 16 := by
      rw [List.length_drop]
      omega
    obtain ⟨fuel, s, hloop, htotal, hsame⟩ :=
      ih hless ⟨p', c.ptr + optLen, (c.len + 2 ^ 16 - optLen) % 2 ^ 16⟩ rfl
        List.drop_drop.symm hwrap
    refine ⟨fuel + 1, s, ?_, ?_, fun hq mib hsees => ?_⟩
    · rw [parseLoop, hturn, Option.bind_some]
      exact hloop
    · rcases htotal with htotal | htotal
      · rcases handleOption_head hhandle with hhead | ⟨-, hhead⟩
        · exact .inl (htotal.trans (congrArg (fun x => x.2.2) hhead))
        · exact .inr (htotal.trans (congrArg (fun x => x.2.2) hhead))
      · exact .inr htotal
    · cases hsees with
      | here => rfl
      | more hmore hthen =>
        rw [hturn] at hmore
        cases hmore
        exact (hsame hq mib hthen).trans ((handleOption_mib hhandle).mpr (hquiet hq))
      | done hdone =>
        rw [hturn] at hdone
        cases hdone

/-- An option of length 0 that takes the loop on does so whatever the server is. -/
theorem zero_stays {p p' : Parser σ} {id type : Nat} {data : Bytes}
    (h : handleOption B M p id type 0 data = some (p', true)) (q : Parser σ) :
    ∃ q', handleOption B M q id type 0 data = some (q', true) ∨
      handleOption B M q id type 0 data = none := by
  by_cases hnone : handleOption B M q id type 0 data = none
  · exact ⟨q, .inr hnone⟩
  · obtain ⟨⟨q', go⟩, hq⟩ := Option.ne_none_iff_exists'.mp hnone
    refine ⟨q', .inl ?_⟩
    rw [hq]
    rw [handleOption] at h hq
    cases htype : optionType B type with
    | conf wlan index f =>
      rw [htype] at hq
      cases f with
      | none =>
        cases hq
        rfl
      | some f =>
        obtain ⟨_, _, heq⟩ := Option.map_eq_some_iff.mp hq
        cases heq
        rfl
    | between =>
      rw [htype] at hq
      cases hq
      rfl
    | item wlan item =>
      rw [htype] at hq
      obtain ⟨_, _, heq⟩ := Option.map_eq_some_iff.mp hq
      cases heq
      rfl
    | chain wlan c =>
      rw [htype] at h hq
      dsimp only at h hq
      rw [addRecord, if_pos (by omega)] at h hq
      cases hq
      have hgo : (c == .atmVc) = true := (Prod.ext_iff.mp (Option.some.inj h)).2
      rw [hgo]
    | idxEnd =>
      rw [htype] at h
      cases h
    | unknown =>
      rw [htype] at hq
      cases hq
      rfl

/-- The loop does not end where an option of length 0 takes it on. -/
theorem loop_stays {frame : Bytes} {id wlan type fuel : Nat} {c : Cursor σ} {p p' : Parser σ}
    (hlen : 4 ≤ c.len) (hmax : c.len < 2 ^ 16)
    (htype : ntohsAt (frame.drop c.ptr) 0 = some type)
    (hopt : ntohsAt (frame.drop c.ptr) 2 = some 0)
    (h : handleOption B M p id type 0 ((frame.drop c.ptr).drop 4) = some (p', true)) :
    parseLoop B M frame id wlan fuel c = none := by
  induction fuel generalizing c with
  | zero => rfl
  | succ fuel ih =>
    rw [parseLoop]
    cases hturn : turn B M frame id wlan c with
    | none => rfl
    | some t =>
      obtain ⟨type', optLen, q, go, htype', hopt', hq⟩ := turn_inv hlen hturn
      cases htype.symm.trans htype'
      cases hopt.symm.trans hopt'
      obtain ⟨q', hstays⟩ := zero_stays h c.parser
      rw [hq] at hstays
      rcases hstays with hstays | hnone
      · cases hstays
        rw [turn_option wlan hlen htype hopt hq, if_pos rfl] at hturn
        have hsame : (c.len + 2 ^ 16 - 0) % 2 ^ 16 = c.len := by omega
        cases hturn
        rw [Option.bind_some, hsame]
        exact ih hlen hmax htype hopt h
      · cases hnone

theorem orderly_of_loop {frame : Bytes} {id wlan fuel : Nat} {quiet : Prop} {c : Cursor σ}
    {s : Server σ} (h : parseLoop B M frame id wlan fuel c = some s)
    (hlen : c.len = (frame.drop c.ptr).length) (hmax : c.len < 2 ^ 16)
    (hquiet : quiet → ∀ mib, Sees B M frame id wlan c mib → mib = c.parser.server.mib) :
    Orderly B M id quiet c.parser (frame.drop c.ptr) := by
  induction fuel generalizing c with
  | zero => cases h
  | succ fuel ih =>
    by_cases hfour : 4 ≤ c.len
    · have hloop := h
      rw [parseLoop] at h
      obtain ⟨t, hturn, h⟩ := Option.bind_eq_some_iff.mp h
      obtain ⟨type, optLen, p', go, htype, hopt, hhandle⟩ := turn_inv hfour hturn
      have hfits := handleOption_some.mp ⟨_, hhandle⟩
      have hleft : ((frame.drop c.ptr).drop 4).length + 4 = (frame.drop c.ptr).length := by
        rw [List.length_drop]
        omega
      rw [hleft] at hfits
      rw [turn_option wlan hfour htype hopt hhandle] at hturn
      cases go with
      | false =>
        have hdone : turn B M frame id wlan c = some (.done { p'.server with wlanIdx := wlan }) :=
          turn_option wlan hfour htype hopt hhandle
        have hsees : Sees B M frame id wlan c { p'.server with wlanIdx := wlan }.mib := .done hdone
        exact .last htype hopt hfits hhandle fun hq =>
          (handleOption_mib hhandle).mp (hquiet hq p'.server.mib hsees)
      | true =>
        have hmore := turn_option wlan hfour htype hopt hhandle
        rw [if_pos rfl] at hmore
        cases hturn
        have hsame : quiet → p'.server.mib = c.parser.server.mib := fun hq =>
          hquiet hq _ (.more hmore (.here _))
        have hpos : 0 < optLen := by
          by_contra hzero
          cases Nat.eq_zero_of_not_pos hzero
          rw [loop_stays hfour hmax htype hopt hhandle] at hloop
          cases hloop
        have hin : optLen ≤ c.len := by
          by_contra hout
          -- the length that is left wraps around, and the next option is beyond the frame
          have hbelow := ntohsAt_lt hopt
          have hbeyond := hlen
          rw [List.length_drop] at hbeyond
          cases fuel with
          | zero => cases h
          | succ fuel =>
            obtain ⟨t, hturn, -⟩ := Option.bind_eq_some_iff.mp h
            obtain ⟨_, _, _, _, hread, -⟩ := turn_inv (by dsimp only; omega) hturn
            have hle := ntohsAt_length hread
            rw [List.length_drop] at hle
            dsimp only at hle
            omega
        have hwrap : (c.len + 2 ^ 16 - optLen) % 2 ^ 16 = (frame.drop (c.ptr + optLen)).length := by
          rw [List.length_drop] at hlen ⊢
          omega
        refine .option htype hopt hfits hhandle
          (fun hq => (handleOption_mib hhandle).mp (hsame hq)) hpos (hlen ▸ hin) ?_
        rw [List.drop_drop]
        exact ih h hwrap (by dsimp only; omega) fun hq mib hsees =>
          (hquiet hq mib (.more hmore hsees)).trans (hsame hq).symm
    · exact .short (by omega)

/-- The tests that come before the index: the protocol, the total length and the checksum. -/
structure Accepted (frame : Bytes) : Prop where
  proto : ntohsAt frame 12 = some clusterManageProtocol
  totlen : ∃ totlen, ntohsAt frame (ethHlen + 2) = some totlen ∧ totlen + ethHlen ≤ frame.length
  checksum : ntohsAt frame ethHlen =
    some (getChecksum (0 :: 0 :: frame.drop (ethHlen + 2)))

/-- The header lies in the frame as far as it is read, and the index has a bit in the mask. -/
structure HeaderInside (frame : Bytes) : Prop where
  ethernet : ethHlen ≤ frame.length
  totlen : ntohsAt frame 12 = some clusterManageProtocol → ethHlen + 4 ≤ frame.length
  index : Accepted frame → ethHlen + 8 ≤ frame.length ∧
    ∃ index, ntohsAt frame (ethHlen + 4) = some index ∧ index < 64

theorem admitPacket_some {frame : Bytes} {s : Server σ} :
    (∃ res, admitPacket frame s = some res) ↔ HeaderInside frame := by
  rw [admitPacket]
  by_cases heth : ethHlen ≤ frame.length
  · obtain ⟨proto, hproto⟩ := ntohsAt_some frame 12 heth
    rw [hproto, Option.bind_some]
    by_cases hcluster : proto = clusterManageProtocol
    · rw [if_neg (not_not_intro hcluster)]
      subst hcluster
      by_cases hfour : ethHlen + 4 ≤ frame.length
      · obtain ⟨totlen, htotlen⟩ := ntohsAt_some frame (ethHlen + 2) hfour
        obtain ⟨checksum, hchecksum⟩ :=
          ntohsAt_some frame ethHlen (by omega)
        rw [htotlen, Option.bind_some]
        by_cases hlong : (frame.length : Int) - ethHlen < totlen
        · rw [if_pos hlong]
          refine ⟨fun _ => ⟨heth, fun _ => hfour, fun hacc => ?_⟩, fun _ => ⟨_, rfl⟩⟩
          obtain ⟨totlen', htotlen', hle⟩ := hacc.totlen
          cases htotlen.symm.trans htotlen'
          omega
        · rw [if_neg hlong, hchecksum, Option.bind_some]
          by_cases hsum : checksum = getChecksum (0 :: 0 :: frame.drop (ethHlen + 2))
          · rw [if_neg (not_not_intro hsum)]
            subst hsum
            have hacc : Accepted frame := ⟨hproto, ⟨totlen, htotlen, by omega⟩, hchecksum⟩
            constructor
            · rintro ⟨res, hres⟩
              obtain ⟨seq, hseq, hres⟩ := Option.bind_eq_some_iff.mp hres
              obtain ⟨index, hindex, hres⟩ := Option.bind_eq_some_iff.mp hres
              obtain ⟨masked, hmasked, -⟩ := Option.bind_eq_some_iff.mp hres
              exact ⟨heth, fun _ => hfour, fun _ =>
                ⟨ntohsAt_length hseq, index, hindex, isMasked_some.mp ⟨masked, hmasked⟩⟩⟩
            · intro hin
              obtain ⟨height, index, hindex, hlt⟩ := hin.index hacc
              obtain ⟨seq, hseq⟩ := ntohsAt_some frame (ethHlen + 6) height
              rw [hseq, Option.bind_some, hindex, Option.bind_some]
              obtain ⟨masked, hmasked⟩ := isMasked_some.mpr hlt
              rw [hmasked, Option.bind_some]
              cases masked with
              | true => exact ⟨_, rfl⟩
              | false =>
                rw [if_neg Bool.false_ne_true]
                obtain ⟨mask, hmask⟩ := maskIdx_some hlt
                rw [hmask]
                exact ⟨_, rfl⟩
          · rw [if_pos hsum]
            refine ⟨fun _ => ⟨heth, fun _ => hfour, fun hacc => ?_⟩, fun _ => ⟨_, rfl⟩⟩
            have hsame := hchecksum.symm.trans hacc.checksum
            exact absurd (Option.some.inj hsame) hsum
      · rw [ntohsAt_none.mpr (by omega), Option.bind_none]
        constructor
        · rintro ⟨res, hres⟩
          cases hres
        · intro hin
          exact absurd (hin.totlen hproto) hfour
    · rw [if_pos hcluster]
      refine ⟨fun _ => ⟨heth, fun hsame => ?_, fun hacc => ?_⟩, fun _ => ⟨_, rfl⟩⟩
      · exact absurd (Option.some.inj (hproto.symm.trans hsame)) hcluster
      · exact absurd (Option.some.inj (hproto.symm.trans hacc.proto)) hcluster
  · have hshort : frame.length < 12 + 2 := Nat.lt_of_not_le heth
    rw [ntohsAt_none.mpr hshort, Option.bind_none]
    constructor
    · rintro ⟨res, hres⟩
      cases hres
    · intro hin
      exact absurd hin.ethernet heth

/-- The tests leave the MIB alone, and a packet that is admitted has a bit in the mask. -/
theorem admitPacket_inv {frame : Bytes} {s s' : Server σ} {admitted : Option Nat}
    (h : admitPacket frame s = some (s', admitted)) :
    s'.mib = s.mib ∧ s'.totalcnt ≤ s.totalcnt ∧
      ∀ index, admitted = some index → index < 64 ∧ ethHlen + 8 ≤ frame.length := by
  rw [admitPacket] at h
  obtain ⟨proto, -, h⟩ := Option.bind_eq_some_iff.mp h
  split at h
  · cases h
    exact ⟨rfl, Nat.le_refl _, fun _ hnone => by cases hnone⟩
  obtain ⟨totlen, -, h⟩ := Option.bind_eq_some_iff.mp h
  split at h
  · cases h
    exact ⟨rfl, Nat.le_refl _, fun _ hnone => by cases hnone⟩
  obtain ⟨checksum, -, h⟩ := Option.bind_eq_some_iff.mp h
  split at h
  · cases h
    exact ⟨rfl, Nat.le_refl _, fun _ hnone => by cases hnone⟩
  obtain ⟨seq, hseq, h⟩ := Option.bind_eq_some_iff.mp h
  obtain ⟨index, -, h⟩ := Option.bind_eq_some_iff.mp h
  obtain ⟨masked, hmasked, h⟩ := Option.bind_eq_some_iff.mp h
  have hmib : (if seq ≠ s.curSeq then { clusterReinit s with curSeq := seq } else s).mib =
      s.mib := by
    split <;> rfl
  have htotal : (if seq ≠ s.curSeq then { clusterReinit s with curSeq := seq } else s).totalcnt ≤
      s.totalcnt := by
    split
    · exact Nat.zero_le _
    · exact Nat.le_refl _
  split at h
  · cases h
    exact ⟨hmib, htotal, fun _ hnone => by cases hnone⟩
  · obtain ⟨mask, -, heq⟩ := Option.map_eq_some_iff.mp h
    cases heq
    refine ⟨hmib, htotal, fun _ hsome => ?_⟩
    cases hsome
    exact ⟨isMasked_some.mp ⟨masked, hmasked⟩, ntohsAt_length hseq⟩

theorem start_on {k : Stack} {frame : Bytes} {s : Server σ} (hin : ethHlen + 8 ≤ frame.length)
    (hmax : frame.length ≤ clusterPktMaxLen) :
    (startCursor k frame s).len = (frame.drop (startCursor k frame s).ptr).length ∧
      (startCursor k frame s).len < 2 ^ 16 := by
  rw [List.length_drop]
  change (frame.length - ethHlen + 2 ^ 16 - 8) % 2 ^ 16 = frame.length - (ethHlen + 8) ∧
    (frame.length - ethHlen + 2 ^ 16 - 8) % 2 ^ 16 < 2 ^ 16
  rw [clusterPktMaxLen] at hmax
  omega

theorem parseLoop_total {frame : Bytes} {id wlan fuel : Nat} {c : Cursor σ} {s : Server σ}
    (h : parseLoop B M frame id wlan fuel c = some s) :
    s.totalcnt = c.parser.server.totalcnt ∨ s.totalcnt = id + 1 := by
  induction fuel generalizing c with
  | zero => cases h
  | succ fuel ih =>
    obtain ⟨t, hturn, h⟩ := Option.bind_eq_some_iff.mp h
    by_cases hfour : 4 ≤ c.len
    · obtain ⟨type, optLen, p', go, htype, hopt, hhandle⟩ := turn_inv hfour hturn
      rw [turn_option wlan hfour htype hopt hhandle] at hturn
      have hhead : p'.server.totalcnt = c.parser.server.totalcnt ∨ p'.server.totalcnt = id + 1 := by
        rcases handleOption_head hhandle with hhead | ⟨-, hhead⟩
        · exact .inl (congrArg (fun x => x.2.2) hhead)
        · exact .inr (congrArg (fun x => x.2.2) hhead)
      cases go with
      | false =>
        cases hturn
        cases h
        exact hhead
      | true =>
        cases hturn
        rcases ih h with htotal | htotal
        · rw [htotal]
          exact hhead
        · exact .inr htotal
    · obtain ⟨wlanIdx, hshort⟩ := turn_short (B := B) (M := M) frame id wlan (c := c) (by omega)
      rw [hshort] at hturn
      cases hturn
      cases h
      exact .inl rfl

/-- The number of packets fits the mask in every state that the server comes to. -/
theorem totalcnt_le {s : Server σ} (h : Reachable B M s) : s.totalcnt ≤ 64 := by
  induction h with
  | init => exact Nat.zero_le 64
  | @frame s s' k fuel frame applied _ hframe ih =>
    obtain ⟨⟨s₁, admitted⟩, htests, hframe⟩ := Option.bind_eq_some_iff.mp hframe
    obtain ⟨-, htotal, hindex⟩ := admitPacket_inv htests
    cases admitted with
    | none =>
      cases hframe
      exact Nat.le_trans htotal ih
    | some index =>
      obtain ⟨s₂, hloop, hframe⟩ := Option.bind_eq_some_iff.mp hframe
      obtain ⟨all, -, heq⟩ := Option.map_eq_some_iff.mp hframe
      cases heq
      have hlt := (hindex index rfl).1
      have hcount : (startCursor k frame s₁).parser.server.totalcnt = s₁.totalcnt := rfl
      dsimp only at hloop
      rcases parseLoop_total hloop with hloop | hloop <;> omega
  | others _ _ ih => exact ih

/-- Options up to the end or to the last one, each with a length that counts its header and
stays inside. -/
inductive WellFormed (B : Build) : Bytes → Prop where
  | nil : WellFormed B []
  | last {rest : Bytes} {type optLen : Nat} : ntohsAt rest 0 = some type →
    optionType B type = .idxEnd → ntohsAt rest 2 = some optLen → 4 ≤ optLen →
    optLen ≤ rest.length → WellFormed B rest
  | option {rest : Bytes} {optLen : Nat} : ntohsAt rest 2 = some optLen → 4 ≤ optLen →
    optLen ≤ rest.length → WellFormed B (rest.drop optLen) → WellFormed B rest

/-- The total length is the one of the frame, which the link may have padded to 60 bytes, the
index has a bit in the mask, and the options are well formed. -/
def Proper (B : Build) (frame : Bytes) : Prop :=
  ∃ totlen index, ntohsAt frame (ethHlen + 2) = some totlen ∧ 8 ≤ totlen ∧
    (totlen + ethHlen = frame.length ∨ totlen + ethHlen ≤ frame.length ∧ frame.length = 60) ∧
    ntohsAt frame (ethHlen + 4) = some index ∧ index < 64 ∧
    WellFormed B ((frame.take (totlen + ethHlen)).drop (ethHlen + 8))

/-- The handling comes to an end, without a byte outside the frame, the masks or a member, and a
frame that is not proper changes no MIB on the way. -/
def HandledSafely (B : Build) (M : MibApi σ) (k : Stack) (frame : Bytes) (s : Server σ) : Prop :=
  (∃ fuel res, handleConfPacket B M k fuel frame s = some res) ∧
    (¬Proper B frame → ∀ s' index, admitPacket frame s = some (s', some index) →
      ∀ mib, Sees B M frame index s'.wlanIdx (startCursor k frame s') mib → mib = s.mib)

/-- The header lies in the frame with an index below 64, and in a frame that passes the tests
the options are orderly. -/
structure Harmless (B : Build) (M : MibApi σ) (k : Stack) (frame : Bytes) (s : Server σ) :
    Prop where
  header : HeaderInside frame
  options : ∀ s' index, admitPacket frame s = some (s', some index) →
    Orderly B M index (¬Proper B frame) (startCursor k frame s').parser
      (frame.drop (ethHlen + 8))

/-- A frame is handled safely exactly when it is harmless. -/
theorem handledSafely_iff {k : Stack} {frame : Bytes} {s : Server σ} (hs : Reachable B M s)
    (hmax : frame.length ≤ clusterPktMaxLen) :
    HandledSafely B M k frame s ↔ Harmless B M k frame s := by
  constructor
  · rintro ⟨⟨fuel, res, hres⟩, hsame⟩
    obtain ⟨⟨s', admitted⟩, htests, hres⟩ := Option.bind_eq_some_iff.mp hres
    refine ⟨admitPacket_some.mp ⟨_, htests⟩, fun s₁ index htests₁ => ?_⟩
    cases htests.symm.trans htests₁
    obtain ⟨s₂, hloop, -⟩ := Option.bind_eq_some_iff.mp hres
    obtain ⟨hmib, -, hindex⟩ := admitPacket_inv htests
    obtain ⟨hlen, hlt⟩ := start_on (k := k) (s := s') (hindex index rfl).2 hmax
    exact orderly_of_loop hloop hlen hlt fun hquiet mib hsees =>
      (hsame hquiet s' index htests mib hsees).trans hmib.symm
  · intro hharmless
    obtain ⟨⟨s', admitted⟩, htests⟩ := admitPacket_some.mpr hharmless.header
    obtain ⟨hmib, htotal, hindex⟩ := admitPacket_inv htests
    cases admitted with
    | none =>
      refine ⟨⟨0, (s', false), ?_⟩, fun _ s₁ index htests₁ => ?_⟩
      · rw [handleConfPacket, htests]
        rfl
      · rw [htests] at htests₁
        cases htests₁
    | some index =>
      have horderly := hharmless.options s' index htests
      obtain ⟨hidx, hin⟩ := hindex index rfl
      obtain ⟨hlen, hlt⟩ := start_on (k := k) (s := s') hin hmax
      have hless : (frame.drop (ethHlen + 8)).length < 2 ^ 16 := by
        rw [← show (startCursor k frame s').len = (frame.drop (ethHlen + 8)).length from hlen]
        exact hlt
      obtain ⟨fuel, s₂, hloop, hcount, hquiet⟩ :=
        loop_of_orderly s'.wlanIdx horderly hless (startCursor k frame s') rfl rfl hlen
      have hstart : (startCursor k frame s').parser.server = s' := rfl
      have htotal₂ : s₂.totalcnt ≤ 64 := by
        have hbefore := totalcnt_le hs
        rw [hstart] at hcount
        omega
      obtain ⟨all, hall⟩ := allReceived_some htotal₂
      constructor
      · refine ⟨fuel, (s₂, all), ?_⟩
        rw [handleConfPacket, htests, Option.bind_some]
        dsimp only
        rw [hloop, Option.bind_some, hall, Option.map_some]
      · intro hbad s₁ index₁ htests₁ mib hsees
        cases htests.symm.trans htests₁
        exact (hquiet hbad mib hsees).trans hmib

/-- A record of the right length takes the loop on, unless it is a key holder's. -/
theorem handleOption_goes {p p' : Parser σ} {id type optLen wlan : Nat} {c : Chain} {data : Bytes}
    {go : Bool} (h : handleOption B M p id type optLen data = some (p', go))
    (htype : optionType B type = .chain wlan c) (hlen : optLen = B.recordSize c + 4)
    (hc : c ≠ .wlanFtkh) : go = true := by
  rw [handleOption, htype] at h
  dsimp only at h
  rw [addRecord, if_neg (not_not_intro hlen)] at h
  obtain ⟨q, -, h⟩ := Option.bind_eq_some_iff.mp h
  obtain ⟨record, -, h⟩ := Option.map_eq_some_iff.mp h
  rw [if_neg hc] at h
  exact (Prod.mk.inj h).2.symm

/-- A frame with an SSID, a record of the IP filter and the last option. -/
def filterFrame : Bytes :=
  [0, 0, 0, 0, 0, 0, 0, 0, 0, 0, 0, 0, 220, 186, 22, 23, 0, 32, 0, 0, 0, 0, 0, 9, 0, 8,
    104, 111, 109, 101, 1, 222, 0, 12, 1, 2, 3, 4, 5, 6, 7, 8, 1, 225, 0, 4]

theorem filterFrame_proper : Proper plainBuild filterFrame := by
  refine ⟨32, 0, by decide +kernel, by decide, .inl (by decide), by decide +kernel, by decide, ?_⟩
  have hssid : ntohsAt ((filterFrame.take 46).drop 22) 2 = some 8 := by decide +kernel
  have hrecord : ntohsAt (((filterFrame.take 46).drop 22).drop 8) 2 = some 12 := by decide +kernel
  have hend : ntohsAt ((((filterFrame.take 46).drop 22).drop 8).drop 12) 0 = some 481 := by
    decide +kernel
  have hlast : ntohsAt ((((filterFrame.take 46).drop 22).drop 8).drop 12) 2 = some 4 := by
    decide +kernel
  exact .option hssid (by decide) (by decide) (.option hrecord (by decide) (by decide)
    (.last hend (by decide +kernel) hlast (by decide) (by decide)))

theorem filterFrame_index {s : Server Mib} {index : Nat}
    (h : admitPacket filterFrame (clusterServerInit emptyMib 0) = some (s, some index)) :
    index = 0 := by
  have hread : (admitPacket filterFrame (clusterServerInit emptyMib 0)).bind (·.2) = some 0 := by
    decide +kernel
  rw [h] at hread
  exact Option.some.inj hread

theorem filterFrame_handled :
    HandledSafely plainBuild tableApi emptyStack filterFrame (clusterServerInit emptyMib 0) := by
  refine (handledSafely_iff (.init emptyMib 0) (by decide)).mpr ⟨⟨by decide, fun _ => by decide,
    fun _ => ⟨by decide, 0, by decide +kernel, by decide⟩⟩, fun s' index h => ?_⟩
  obtain rfl := filterFrame_index h
  have hssid : optionType plainBuild 9 = .conf 0 0 (some .ssid) := by decide +kernel
  have hchain : optionType plainBuild 478 = .chain 0 .ipPortFilter := by decide +kernel
  have hend : optionType plainBuild 481 = .idxEnd := by decide +kernel
  have hproper {P : Prop} (hbad : ¬Proper plainBuild filterFrame) : P :=
    absurd filterFrame_proper hbad
  obtain ⟨p₁, hone⟩ : ∃ p₁, handleOption plainBuild tableApi
      (startCursor emptyStack filterFrame s').parser 0 9 8 ((filterFrame.drop 22).drop 4) =
        some (p₁, true) := by
    rw [handleOption, hssid]
    exact ⟨_, rfl⟩
  obtain ⟨p₂, htwo⟩ : ∃ p₂, handleOption plainBuild tableApi p₁ 0 478 12
      (((filterFrame.drop 22).drop 8).drop 4) = some (p₂, true) := by
    have hfits : Fits plainBuild (optionType plainBuild 478) 12
        ((((filterFrame.drop 22).drop 8).drop 4).length + 4) := by
      rw [hchain]
      exact fun _ => by decide
    obtain ⟨⟨p₂, go⟩, hdone⟩ := handleOption_some.mpr hfits
    obtain rfl := handleOption_goes hdone hchain rfl (by decide)
    exact ⟨p₂, hdone⟩
  have hthree : handleOption plainBuild tableApi p₂ 0 481 4
      ((((filterFrame.drop 22).drop 8).drop 12).drop 4) =
        some ({ p₂ with server := { p₂.server with totalcnt := 1 } }, false) := by
    rw [handleOption, hend]
  refine .option (by decide +kernel) (by decide +kernel) ?_ hone hproper (by decide) (by decide)
    (.option (by decide +kernel) (by decide +kernel) ?_ htwo hproper (by decide) (by decide)
      (.last (by decide +kernel) (by decide +kernel) ?_ hthree hproper))
  · rw [hssid]
    exact ⟨by decide, by decide, by decide⟩
  · rw [hchain]
    exact fun _ => by decide
  · rw [hend]
    trivial

/-- A frame with an option of length 0 is handled for ever. -/
def zeroFrame : Bytes :=
  [0, 0, 0, 0, 0, 0, 0, 0, 0, 0, 0, 0, 220, 186, 255, 243, 0, 12, 0, 0, 0, 0, 0, 0, 0, 0]

theorem zeroFrame_not_handled :
    ¬HandledSafely plainBuild tableApi emptyStack zeroFrame (clusterServerInit emptyMib 0) := by
  rintro ⟨⟨fuel, res, hres⟩, -⟩
  obtain ⟨⟨s', admitted⟩, htests, hres⟩ := Option.bind_eq_some_iff.mp hres
  have hzero : (admitPacket zeroFrame (clusterServerInit emptyMib 0)).bind (·.2) = some 0 := by
    decide +kernel
  rw [htests] at hzero
  cases hzero
  obtain ⟨s₂, hloop, -⟩ := Option.bind_eq_some_iff.mp hres
  have hunknown : optionType plainBuild 0 = .unknown := by decide +kernel
  have hstays : ∀ p : Parser Mib, handleOption plainBuild tableApi p 0 0 0
      ((zeroFrame.drop 22).drop 4) = some (p.setWlanIdx 0, true) := by
    intro p
    rw [handleOption, hunknown]
  have hlen : 4 ≤ (startCursor emptyStack zeroFrame s').len := by
    change 4 ≤ (zeroFrame.length - ethHlen + 2 ^ 16 - 8) % 2 ^ 16
    decide
  have hmax : (startCursor emptyStack zeroFrame s').len < 2 ^ 16 := Nat.mod_lt _ (by decide)
  have htype : ntohsAt (zeroFrame.drop 22) 0 = some 0 := by decide +kernel
  have hopt : ntohsAt (zeroFrame.drop 22) 2 = some 0 := by decide +kernel
  have hnone : parseLoop plainBuild tableApi zeroFrame 0 s'.wlanIdx fuel
      (startCursor emptyStack zeroFrame s') = none :=
    loop_stays hlen hmax htype hopt (hstays (startCursor emptyStack zeroFrame s').parser)
  dsimp only at hloop
  rw [hnone] at hloop
  cases hloop

end FrameSafety

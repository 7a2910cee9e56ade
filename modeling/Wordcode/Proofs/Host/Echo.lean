import Wordcode.Proofs.Host.Intake
import Wordcode.Proofs.Host.TextBytes

/-! The echo, from the bytes of a text to the bytes that are printed. `echoLoop` reads a character
into a register, prints the register and starts over. One lap around the loop is one character of
its queue; the lines of a text may all be queued in advance, so the laps go through the characters
that the lines of the text come to, and behind the last one the input is exhausted. -/

namespace Wordcode

universe u v

/-! ## What is echoed -/

/-- Reads a character, prints it and starts over. -/
def echoLoop : List Word := [20, 32768, 19, 32768, 6, 0]

/-- The character whose code point is the one of `c` modulo `2 ^ 15`. -/
def folded (c : Char) : Char :=
  Char.ofNat (c.toNat % 32768)

/-- The characters to be heard back from a text: each of its pieces loses one final line feed and
then one final carriage return, gets a line feed, and is folded character by character. -/
def echoed (text : String) : List Char :=
  ((pieces (· = '\n') text.toList).flatMap fun piece =>
    dropFinal '\r' (dropFinal '\n' piece) ++ ['\n']).map folded

/-- A character that goes through a register comes out folded. -/
theorem charOfWord_reduce (c : Char) : charOfWord (reduce c.toNat) = folded c := by
  have hcode : (reduce c.toNat).toNat = c.toNat % 32768 := by
    rw [toNat_reduce]
    omega
  obtain ⟨hvalid, -⟩ := Machine.toNat_charOfWord (reduce_lt c.toNat)
  rw [charOfWord, if_pos hvalid, hcode, folded]

theorem folded_of_lt {c : Char} (h : c.toNat < 32768) : folded c = c := by
  rw [folded, Nat.mod_eq_of_lt h, Char.ofNat_toNat]

theorem echoed_eq (text : String) :
    echoed text =
      (((pieces (· = '\n') text.toList).map String.ofList).flatMap lineChars).map folded := by
  unfold echoed
  rw [List.flatMap_map]
  simp only [lineChars, String.toList_ofList]

/-- A line that ends in a line feed and has no carriage return is kept. -/
theorem dropFinal_of_lineFeed {front : List Char} (hcr : '\r' ∉ front) :
    dropFinal '\r' (dropFinal '\n' (front ++ ['\n'])) ++ ['\n'] = front ++ ['\n'] := by
  rw [dropFinal_append, dropFinal_of_not_suffix]
  intro hsuffix
  exact hcr (hsuffix.subset List.mem_cons_self)

/-- A text with no carriage return whose lines all end in a line feed comes back as it is, if no
character is folded. -/
theorem echoed_of_plain {text : String} (hcr : '\r' ∉ text.toList)
    (hcode : ∀ c ∈ text.toList, c.toNat < 32768)
    (hlast : ∀ c, text.toList.getLast? = some c → c = '\n') : echoed text = text.toList := by
  have hflatten := flatten_pieces (· = '\n') text.toList
  have hkept : ∀ piece ∈ pieces (· = '\n') text.toList,
      dropFinal '\r' (dropFinal '\n' piece) ++ ['\n'] = piece := by
    intro piece hpiece
    obtain ⟨front, x, rfl, hx⟩ :=
      exists_end_of_mem_pieces (fun c hc => decide_eq_true (hlast c hc)) hpiece
    obtain rfl := of_decide_eq_true hx
    refine dropFinal_of_lineFeed ?_
    intro hmem
    apply hcr
    rw [← hflatten]
    exact List.mem_flatten.mpr ⟨_, hpiece, List.mem_append_left _ hmem⟩
  have hlines : (pieces (· = '\n') text.toList).flatMap
      (fun piece => dropFinal '\r' (dropFinal '\n' piece) ++ ['\n']) = text.toList := by
    rw [List.flatMap_def, List.map_congr_left hkept, List.map_id', hflatten]
  unfold echoed
  rw [hlines, List.map_congr_left fun c hc => folded_of_lt (hcode c hc), List.map_id']

/-! ## One lap -/

/-- The loop stands at the beginning of memory. -/
structure Memory.Echoes (mem : Memory) : Prop where
  read : mem.fetch 0 = .ok (.input 32768)
  print : mem.fetch 2 = .ok (.out 32768)
  back : mem.fetch 4 = .ok (.jump 0)

/-- A machine at the head of the loop, with these characters to read and none to follow. -/
def Machine.echoing (mem : Memory) (advance : Advance) (bank : Registers) (cs : List Char)
    (cycles : UInt64) : Machine :=
  { memory := mem, registers := bank, input := ⟨cs, true⟩, advance, cycles }

section Lap

variable {σ : Type u} {κ : Type v} [LineSource σ] [Sink κ] {mem : Memory} {advance : Advance}
  {bank : Registers} {cycles : UInt64} {s s' : Session} {source : σ} {k k' : κ}

namespace Run

theorem Ends.of_quiet (h : s.execute 1 = (none, s')) {result : Except Fault Unit} {t : Run σ κ}
    (he : Ends ⟨s', source, k⟩ result t) : Ends ⟨s, source, k⟩ result t := by
  refine .later ?_ he
  simp only [round, h]

theorem Ends.of_print {c : Char} (h : s.execute 1 = (some (.print c), s'))
    (hput : Sink.put k c = (.ok (), k')) {result : Except Fault Unit} {t : Run σ κ}
    (he : Ends ⟨s', source, k'⟩ result t) : Ends ⟨s, source, k⟩ result t := by
  refine .later ?_ he
  simp only [round, h, hput]

/-- One lap takes one character and prints it. -/
theorem ends_of_lap (source : σ) {c : Char} {cs : List Char} (hmem : mem.Echoes)
    (hs : s.machine = .echoing mem advance bank (c :: cs) cycles)
    (hput : Sink.put k (folded c) = (.ok (), k')) :
    ∃ s' bank', s'.machine = .echoing mem advance bank' cs (cycles + 3) ∧
      ∀ result t, Ends ⟨s', source, k'⟩ result t → Ends ⟨s, source, k⟩ result t := by
  have hdst : Operand.decode 32768 = .ok (.register 0) := Operand.decode_encode (.register 0)
  -- the three instructions of the loop, each from the machine the one before has left
  obtain ⟨he₀, hs₁⟩ := Session.execute_one_of_rules hs rfl hmem.read (.inputRegister hdst rfl)
  generalize (s.execute 1).2 = s₁ at he₀ hs₁
  simp only [Machine.follow] at he₀ hs₁
  rw [Machine.proceed_of_fetch hmem.print] at he₀ hs₁
  have hsrc : s₁.machine.value 32768 = .ok (reduce c.toNat) := by
    rw [hs₁]
    exact Machine.value_eq_ok_iff.mpr ⟨by decide, Registers.get_set_self _ _ _⟩
  rw [hs₁] at hsrc
  obtain ⟨he₁, hs₂⟩ := Session.execute_one_of_rules hs₁ rfl hmem.print (.out hsrc)
  generalize (s₁.execute 1).2 = s₂ at he₁ hs₂
  simp only [Machine.follow] at he₁ hs₂
  rw [Machine.proceed_of_fetch hmem.back, charOfWord_reduce] at he₁ hs₂
  have htarget : s₂.machine.value 0 = .ok 0 := by
    rw [hs₂]
    exact Machine.value_eq_ok_iff.mpr ⟨by decide, rfl⟩
  rw [hs₂] at htarget
  obtain ⟨he₂, hs₃⟩ := Session.execute_one_of_rules hs₂ rfl hmem.back (.jump htarget)
  generalize (s₂.execute 1).2 = s₃ at he₂ hs₃
  have hthree : cycles + 1 + 1 + 1 = cycles + 3 := by
    rw [UInt64.add_assoc, UInt64.add_assoc]
    rfl
  refine ⟨s₃, bank.set 0 (reduce c.toNat), ?_, fun result t he => ?_⟩
  · rw [hs₃]
    exact congrArg (Machine.echoing mem advance _ cs) hthree
  · exact .of_quiet he₀ (.of_print he₁ hput (.of_quiet he₂ he))

/-- With no character left the input is exhausted. -/
theorem ends_of_exhausted (source : σ) (k : κ) (hmem : mem.Echoes)
    (hs : s.machine = .echoing mem advance bank [] cycles) :
    ∃ t, Ends ⟨s, source, k⟩ (.error (Fault.inputExhausted.located 0)) t ∧ t.sink = k ∧
      t.session.machine.cycles = cycles := by
  have hevent : s.machine.step.event = some (.fault (Fault.inputExhausted.located 0)) := by
    have hplan : s.machine.plan (.input 32768) = .error .inputExhausted := by
      rw [hs]
      rfl
    have hf : s.machine.memory.fetch s.machine.pc = .ok (.input 32768) := by
      rw [hs]
      exact hmem.read
    rw [Machine.event_eq_fault_iff, Machine.fault?_of_fetch hf, hplan, hs]
    rfl
  have hrun : s.machine.status = .running := by rw [hs]; rfl
  have hexec := Session.execute_of_event hrun hevent 0
  have hsame : s.step.2.machine = _ := Machine.machine_step_of_fault hevent
  refine ⟨⟨s.step.2, source, k⟩, .now ?_, rfl, ?_⟩
  · simp only [round, hexec]
  · rw [hsame, hs]
    rfl

/-- Lap by lap the loop prints the characters it has to read. -/
theorem ends_of_laps (source : σ) {cs : List Char} (hmem : mem.Echoes)
    (hs : s.machine = .echoing mem advance bank cs cycles)
    (hput : Sink.putAll k (cs.map folded) = (.ok (), k')) :
    ∃ t, Ends ⟨s, source, k⟩ (.error (Fault.inputExhausted.located 0)) t ∧ t.sink = k' ∧
      t.session.machine.cycles = cycles + UInt64.ofNat (3 * cs.length) := by
  induction cs generalizing s bank cycles k with
  | nil =>
    cases hput
    obtain ⟨t, ht, hsink, hcycles⟩ := ends_of_exhausted source k' hmem hs
    refine ⟨t, ht, hsink, ?_⟩
    rw [hcycles]
    exact (UInt64.add_zero cycles).symm
  | cons c cs ih =>
    simp only [List.map_cons, Sink.putAll] at hput
    cases hc : Sink.put k (folded c) with
    | mk reply k₁ =>
      rw [hc] at hput
      cases reply with
      | error e => cases hput
      | ok =>
        obtain ⟨s', bank', hs', hends⟩ := ends_of_lap source hmem hs hc
        obtain ⟨t, ht, hsink, hcycles⟩ := ih hs' hput
        refine ⟨t, hends _ _ ht, hsink, ?_⟩
        rw [hcycles, List.length_cons, Nat.mul_succ, Nat.add_comm (3 * cs.length), UInt64.ofNat_add,
          ← UInt64.add_assoc]
        rfl

end Run

end Lap

/-! ## From text to echo -/

theorem ends_of_text {κ : Type v} [Sink κ] (threshold : Level) (advance : Advance)
    {text : String} {k k' : κ} (hput : Sink.putAll k (echoed text) = (.ok (), k')) :
    ∃ t, Run.Ends ⟨Session.boot { threshold := threshold } echoLoop advance,
        ByteLines.mk (utf8 text.toList), k⟩ (.error (Fault.inputExhausted.located 0)) t ∧
      t.sink = k' ∧ t.session.machine.cycles = UInt64.ofNat (3 * (echoed text).length) := by
  obtain ⟨mem, s, hs, hboot, -, hfetch⟩ :=
    Session.boot_of_le { threshold := threshold } echoLoop advance (by decide)
  have hmem : mem.Echoes := ⟨hfetch ⟨_, rfl⟩, hfetch ⟨_, rfl⟩, hfetch ⟨_, rfl⟩⟩
  have hsource := supplies_utf8 text.toList
  rw [echoed_eq] at hput ⊢
  rw [hs]
  generalize (pieces (· = '\n') text.toList).map String.ofList = lines at hput hsource ⊢
  -- the laps are counted on the run that has all lines in its queue
  have hfed : Run.Fed ⟨s, ByteLines.mk (utf8 text.toList), k⟩ lines
      (⟨s.fed lines, ⟨⟩, k⟩ : Run Silence κ) := by
    refine ⟨⟨?_, fun _ => hsource⟩, rfl, rfl⟩
    rw [hboot]
    intro hclosed
    cases hclosed
  have hhead : (s.fed lines).machine =
      .echoing mem advance .zero (lines.flatMap lineChars) 0 := by
    simp only [Session.fed, hboot]
    rfl
  obtain ⟨g, hg, hsink, hcycles⟩ := Run.ends_of_laps (⟨⟩ : Silence) hmem hhead hput
  obtain ⟨rest, t, ht, hrest⟩ := hfed.ends_of_ends hg
  refine ⟨t, ht, hrest.sink.symm.trans hsink, ?_⟩
  have hsame : g.session.machine.cycles = t.session.machine.cycles :=
    congrArg (fun m => m.cycles) hrest.machine
  rw [← hsame, hcycles, List.length_map]
  exact UInt64.zero_add _

/-- **The loop echoes every text.** On any sink that never fails it prints exactly what is to be
heard back, flushing behind each character and spending three instructions on it, and then finds
its input exhausted. A plain text comes back unchanged. -/
theorem echo_end_to_end {κ : Type v} [Sink κ] {good : κ → Prop} {bytes : κ → List UInt8}
    {flushes : κ → Nat} (hsink : Sink.Reliable good bytes flushes) {k : κ} (hk : good k)
    (threshold : Level) (advance : Advance) (text : String) :
    (∃ n t, Run.drive n ⟨Session.boot { threshold := threshold } echoLoop advance,
        ByteLines.mk (utf8 text.toList), k⟩ =
        some (.error { kind := .inputExhausted, pc := some 0, detail := "END OF INPUT STREAM" }, t) ∧
      bytes t.sink = bytes k ++ utf8 (echoed text) ∧
      flushes t.sink = flushes k + (echoed text).length ∧
      (3 * (echoed text).length < UInt64.size →
        t.session.machine.cycles.toNat = 3 * (echoed text).length)) ∧
    ('\r' ∉ text.toList → (∀ c ∈ text.toList, c.toNat < 32768) →
      (text.toList = [] ∨ ['\n'] <:+ text.toList) → echoed text = text.toList) := by
  refine ⟨?_, ?_⟩
  · obtain ⟨k', hput, hbytes, hflushes⟩ := hsink.putAll hk (echoed text)
    obtain ⟨t, hends, rfl, hcycles⟩ := ends_of_text threshold advance hput
    obtain ⟨n, hn⟩ := Run.exists_drive_iff_ends.mpr hends
    refine ⟨n, t, hn, hbytes, hflushes, ?_⟩
    intro hlimit
    rw [hcycles, UInt64.toNat_ofNat_of_lt' hlimit]
  · intro hcr hcode hend
    refine echoed_of_plain hcr hcode ?_
    intro c hc
    rcases hend with hempty | ⟨front, hfront⟩
    · rw [hempty] at hc
      cases hc
    · rw [← hfront, List.getLast?_concat] at hc
      exact (Option.some.inj hc).symm

/-- A carriage return is lost, a character beyond the modulus is folded, and the last line gets the
line feed it lacks. -/
theorem echo_end_to_end_of_mixed_text :
    ∃ n t, Run.drive n ⟨Session.boot { threshold := .warn } echoLoop .scan,
        ByteLines.mk (utf8 "é\r\n😀".toList), ({} : BoundedSink)⟩ =
        some (.error { kind := .inputExhausted, pc := some 0, detail := "END OF INPUT STREAM" }, t) ∧
      t.sink.accepted.toList = utf8 "é\n瘀\n".toList ∧ t.sink.flushes = 4 ∧
      t.session.machine.cycles.toNat = 12 ∧ echoed "é\n瘀\n" = "é\n瘀\n".toList := by
  have hechoed : echoed "é\r\n😀" = "é\n瘀\n".toList := by decide
  obtain ⟨⟨n, t, hn, hbytes, hflushes, hcycles⟩, -⟩ :=
    echo_end_to_end BoundedSink.reliable (k := {}) ⟨rfl, rfl⟩ .warn .scan "é\r\n😀"
  rw [hechoed] at hbytes hflushes hcycles
  refine ⟨n, t, hn, hbytes, hflushes, hcycles (by decide), ?_⟩
  have hcodes : ("é\n瘀\n".toList.all fun c => c.toNat < 32768) = true := by decide
  have hplain := (echo_end_to_end BoundedSink.reliable (k := {}) ⟨rfl, rfl⟩ .warn .flat "é\n瘀\n").2
  refine hplain (by decide) (fun c hc => ?_) (.inr (by decide))
  exact of_decide_eq_true (List.all_eq_true.mp hcodes c hc)

end Wordcode

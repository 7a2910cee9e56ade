import Mathlib.Order.Bounds.Defs
import Wordcode.Host.Sink

/-! What sinks make of characters. A sink is given one character after the other until it refuses
one. A reliable sink takes them all, however little it takes at a time. `Ledger` shows every request
in order; a bounded sink takes what fits, byte by byte, and refuses the character that does not fit
whole or whose flush is made to fail. -/

namespace Wordcode

universe u

/-! ## Bytes of characters -/

/-- Characters in UTF-8. -/
def utf8 (cs : List Char) : List UInt8 :=
  cs.flatMap String.utf8EncodeChar

@[simp] theorem utf8_nil : utf8 [] = [] := rfl

@[simp] theorem utf8_cons (c : Char) (cs : List Char) :
    utf8 (c :: cs) = String.utf8EncodeChar c ++ utf8 cs := rfl

@[simp] theorem utf8_append (cs ds : List Char) : utf8 (cs ++ ds) = utf8 cs ++ utf8 ds :=
  List.flatMap_append

/-- More bytes than a limit means that there is a character at which the limit is passed. -/
theorem exists_crossing {cs : List Char} {limit : Nat} (h : limit < (utf8 cs).length) :
    ∃ front c back, cs = front ++ c :: back ∧ (utf8 front).length ≤ limit ∧
      limit < (utf8 front).length + (String.utf8EncodeChar c).length := by
  induction cs generalizing limit with
  | nil => simp at h
  | cons c cs ih =>
    by_cases hc : limit < (String.utf8EncodeChar c).length
    · exact ⟨[], c, cs, rfl, Nat.zero_le _, by simpa using hc⟩
    · rw [utf8_cons, List.length_append] at h
      have hrest : limit - (String.utf8EncodeChar c).length < (utf8 cs).length := by omega
      obtain ⟨front, d, back, rfl, hfront, hd⟩ := ih hrest
      refine ⟨c :: front, d, back, rfl, ?_, ?_⟩
      · rw [utf8_cons, List.length_append]
        omega
      · rw [utf8_cons, List.length_append]
        omega

/-- The characters before the one that passes the limit are all that lie within it. -/
theorem isGreatest_of_crossing {front back : List Char} {c : Char} {limit : Nat}
    (hfront : (utf8 front).length ≤ limit)
    (hc : limit < (utf8 front).length + (String.utf8EncodeChar c).length) :
    IsGreatest {j | j ≤ (front ++ c :: back).length ∧
      (utf8 ((front ++ c :: back).take j)).length ≤ limit} front.length := by
  refine ⟨⟨by simp, by simpa using hfront⟩, ?_⟩
  intro j hj
  obtain ⟨-, hj⟩ := hj
  apply Nat.not_lt.mp
  intro hlt
  obtain ⟨k, rfl⟩ : ∃ k, j = front.length + (k + 1) := ⟨j - front.length - 1, by omega⟩
  rw [List.take_length_add_append, List.take_succ_cons, utf8_append, utf8_cons,
    List.length_append, List.length_append] at hj
  omega

/-! ## Characters one after the other -/

namespace Sink

variable {κ : Type u} [Sink κ]

/-- Puts the characters until one is refused. -/
def putAll (k : κ) : List Char → Except StreamError Unit × κ
  | [] => (.ok (), k)
  | c :: cs =>
    match put k c with
    | (.ok (), k) => putAll k cs
    | (.error e, k) => (.error e, k)

theorem putAll_append (k : κ) (cs ds : List Char) :
    putAll k (cs ++ ds) =
      match putAll k cs with
      | (.ok (), k) => putAll k ds
      | (.error e, k) => (.error e, k) := by
  induction cs generalizing k with
  | nil => rfl
  | cons c cs ih =>
    simp only [List.cons_append, putAll]
    cases put k c with
    | mk reply k' =>
      cases reply with
      | ok => exact ih k'
      | error e => rfl

/-- A character that is refused after others were taken is the last one. -/
theorem putAll_of_refused {k k' k'' : κ} {cs ds : List Char} {c : Char} {e : StreamError}
    (hcs : putAll k cs = (.ok (), k')) (hc : put k' c = (.error e, k'')) :
    putAll k (cs ++ c :: ds) = (.error e, k'') := by
  rw [putAll_append, hcs]
  simp only [putAll, hc]

end Sink

/-! ## Sinks that never fail -/

/-- A sink in a good state takes at least one of the bytes it is offered and holds them behind the
ones it has; it can be flushed, its flushes are counted, and it stays good. -/
structure Sink.Reliable {κ : Type u} [Sink κ] (good : κ → Prop) (bytes : κ → List UInt8)
    (flushes : κ → Nat) : Prop where
  write {k : κ} {offered : List UInt8} : good k → offered ≠ [] →
    ∃ n k', Sink.write k offered = (.ok (n + 1), k') ∧ good k' ∧
      bytes k' = bytes k ++ offered.take (n + 1) ∧ flushes k' = flushes k
  flush {k : κ} : good k →
    ∃ k', Sink.flush k = (.ok (), k') ∧ good k' ∧ bytes k' = bytes k ∧ flushes k' = flushes k + 1

namespace Sink.Reliable

variable {κ : Type u} [Sink κ] {good : κ → Prop} {bytes : κ → List UInt8} {flushes : κ → Nat}
  {k : κ}

/-- However little it takes at a time, it takes all in the end. -/
theorem writeAll (h : Reliable good bytes flushes) (hk : good k) (offered : List UInt8) :
    ∃ k', Sink.writeAll k offered = (.ok (), k') ∧ good k' ∧ bytes k' = bytes k ++ offered ∧
      flushes k' = flushes k := by
  induction hlength : offered.length using Nat.strongRecOn generalizing k offered with
  | ind length ih =>
    cases offered with
    | nil => exact ⟨k, by rw [Sink.writeAll], hk, (List.append_nil _).symm, rfl⟩
    | cons b bs =>
      obtain ⟨n, k', hwrite, hk', hbytes, hflushes⟩ := h.write hk (List.cons_ne_nil b bs)
      have hshorter : (bs.drop n).length < length := by
        rw [← hlength, List.length_drop, List.length_cons]
        omega
      obtain ⟨k'', hrest, hk'', hbytes', hflushes'⟩ := ih _ hshorter hk' (bs.drop n) rfl
      refine ⟨k'', ?_, hk'', ?_, hflushes'.trans hflushes⟩
      · rw [Sink.writeAll, hwrite]
        exact hrest
      · rw [hbytes', hbytes, List.append_assoc, List.take_succ_cons, List.cons_append,
          List.take_append_drop]

theorem put (h : Reliable good bytes flushes) (hk : good k) (c : Char) :
    ∃ k', Sink.put k c = (.ok (), k') ∧ good k' ∧ bytes k' = bytes k ++ String.utf8EncodeChar c ∧
      flushes k' = flushes k + 1 := by
  obtain ⟨k', hwrite, hk', hbytes, hflushes⟩ := h.writeAll hk (String.utf8EncodeChar c)
  obtain ⟨k'', hflush, hk'', hbytes', hflushes'⟩ := h.flush hk'
  refine ⟨k'', ?_, hk'', hbytes'.trans hbytes, ?_⟩
  · simp only [Sink.put, hwrite, hflush]
  · rw [hflushes', hflushes]

/-- It takes all characters and is flushed behind each. -/
theorem putAll (h : Reliable good bytes flushes) (hk : good k) (cs : List Char) :
    ∃ k', Sink.putAll k cs = (.ok (), k') ∧ bytes k' = bytes k ++ utf8 cs ∧
      flushes k' = flushes k + cs.length := by
  induction cs generalizing k with
  | nil => exact ⟨k, rfl, (List.append_nil _).symm, rfl⟩
  | cons c cs ih =>
    obtain ⟨k', hput, hk', hbytes, hflushes⟩ := h.put hk c
    obtain ⟨k'', hrest, hbytes', hflushes'⟩ := ih hk'
    refine ⟨k'', ?_, ?_, ?_⟩
    · simp only [Sink.putAll, hput, hrest]
    · rw [hbytes', hbytes, utf8_cons, List.append_assoc]
    · rw [hflushes', hflushes, List.length_cons, Nat.add_assoc, Nat.add_comm 1]

end Sink.Reliable

/-! ## A sink that keeps a record -/

/-- What a sink is asked to do. -/
inductive Request where
  | write (bytes : List UInt8)
  | flush
  deriving DecidableEq, Repr

/-- A sink that never fails and keeps a record of what it is asked to do. -/
structure Ledger where
  requests : List Request := []
  deriving DecidableEq, Repr

namespace Ledger

instance : Sink Ledger where
  write k bytes := (.ok bytes.length, ⟨k.requests ++ [.write bytes]⟩)
  flush k := (.ok (), ⟨k.requests ++ [.flush]⟩)

/-- The requests that deliver these characters: each is written whole and flushed. -/
def delivery (cs : List Char) : List Request :=
  cs.flatMap fun c => [.write (String.utf8EncodeChar c), .flush]

theorem put_eq (k : Ledger) (c : Char) :
    Sink.put k c = (.ok (), ⟨k.requests ++ delivery [c]⟩) := by
  cases hbytes : String.utf8EncodeChar c with
  | nil => exact absurd hbytes String.utf8EncodeChar_ne_nil
  | cons b bs =>
    simp [Sink.put, hbytes, Sink.writeAll, Sink.write, Sink.flush, delivery]

theorem putAll_eq (k : Ledger) (cs : List Char) :
    Sink.putAll k cs = (.ok (), ⟨k.requests ++ delivery cs⟩) := by
  induction cs generalizing k with
  | nil => simp [Sink.putAll, delivery]
  | cons c cs ih =>
    simp only [Sink.putAll, put_eq, ih]
    simp [delivery]

end Ledger

/-! ## Bounded sinks -/

namespace BoundedSink

variable {k : BoundedSink} {bytes : List UInt8}

/-- The sink after it has taken these characters. -/
def filled (k : BoundedSink) (cs : List Char) : BoundedSink :=
  { k with accepted := k.accepted ++ utf8 cs, flushes := k.flushes + cs.length }

theorem filled_nil (k : BoundedSink) : k.filled [] = k := by
  simp [filled]

theorem filled_filled (k : BoundedSink) (cs ds : List Char) :
    (k.filled cs).filled ds = k.filled (cs ++ ds) := by
  have hbytes : k.accepted ++ utf8 cs ++ utf8 ds = k.accepted ++ (utf8 cs ++ utf8 ds) := by
    apply Array.toList_inj.mp
    simp
  simp [filled, Nat.add_assoc, hbytes]

theorem write_of_room {taken : Nat} (h : k.room bytes.length = taken + 1) :
    Sink.write k bytes =
      (.ok (taken + 1), { k with accepted := k.accepted ++ bytes.take (taken + 1) }) := by
  simp [Sink.write, write, h]

theorem writeAll_of_room (h : k.room bytes.length = bytes.length) :
    Sink.writeAll k bytes = (.ok (), { k with accepted := k.accepted ++ bytes }) := by
  cases bytes with
  | nil => simp [Sink.writeAll]
  | cons b bs =>
    rw [List.length_cons] at h
    have hwrite : Sink.write k (b :: bs) = _ := write_of_room h
    rw [Sink.writeAll, hwrite]
    simp [Sink.writeAll]

/-- Without a capacity and a flush that is made to fail, a sink never fails. -/
theorem reliable : Sink.Reliable (fun k : BoundedSink => k.capacity = none ∧ k.failingFlush = none)
    (·.accepted.toList) (·.flushes) where
  write {k offered} hk hne := by
    obtain ⟨n, hlength⟩ := Nat.exists_eq_add_one.mpr (List.length_pos_iff.mpr hne)
    have hroom : k.room offered.length = n + 1 := by
      simp only [room, hk.1, hlength]
    exact ⟨n, _, write_of_room hroom, hk, Array.toList_appendList, rfl⟩
  flush {k} hk := by
    refine ⟨{ k with flushes := k.flushes + 1 }, ?_, hk, rfl, rfl⟩
    simp only [Sink.flush, flush, hk.2]
    rfl

/-- A full sink refuses bytes, in one way or the other. -/
theorem writeAll_of_full (h : k.room bytes.length = 0) (hne : bytes ≠ []) :
    ∃ e, Sink.writeAll k bytes = (.error e, k) := by
  cases bytes with
  | nil => exact absurd rfl hne
  | cons b bs =>
    have hwrite : Sink.write k (b :: bs) =
        (if k.stalls then .ok 0 else .error (.other "closed"), k) := by
      simp only [Sink.write, write, h]
      rfl
    rw [Sink.writeAll, hwrite]
    cases k.stalls with
    | true => exact ⟨_, rfl⟩
    | false => exact ⟨_, rfl⟩

/-- A sink that becomes full has taken what fitted. -/
theorem writeAll_of_overflow {limit : Nat} (hcapacity : k.capacity = some limit)
    (hsize : k.accepted.size ≤ limit) (h : limit < k.accepted.size + bytes.length) :
    ∃ e, Sink.writeAll k bytes =
      (.error e, { k with accepted := k.accepted ++ bytes.take (limit - k.accepted.size) }) := by
  have hroom : k.room bytes.length = limit - k.accepted.size := by
    simp only [room, hcapacity]
    omega
  cases hleft : limit - k.accepted.size with
  | zero =>
    have hne : bytes ≠ [] := by
      intro hnil
      rw [hnil, List.length_nil] at h
      omega
    obtain ⟨e, he⟩ := writeAll_of_full (hroom.trans hleft) hne
    exact ⟨e, by simpa using he⟩
  | succ taken =>
    -- the first write fills the sink, the second is refused
    have hwrite := write_of_room (hroom.trans hleft)
    cases bytes with
    | nil =>
      rw [List.length_nil] at h
      omega
    | cons b bs =>
      rw [List.length_cons] at h
      have hmore : bs.drop taken ≠ [] := by
        intro hnil
        have hlength := List.drop_eq_nil_iff.mp hnil
        omega
      rw [Sink.writeAll, hwrite]
      refine writeAll_of_full ?_ hmore
      have hfull : (k.accepted ++ (b :: bs).take (taken + 1)).size = limit := by
        rw [← Array.length_toList, Array.toList_appendList, List.length_append, List.length_take,
          Array.length_toList, List.length_cons]
        omega
      simp only [room, hcapacity, hfull]
      omega

/-- A character that fits is taken, and the sink is flushed behind it. -/
theorem put_of_room {c : Char}
    (h : k.room (String.utf8EncodeChar c).length = (String.utf8EncodeChar c).length) :
    Sink.put k c =
      (if k.failingFlush = some (k.flushes + 1) then .error (.other "flush failed") else .ok (),
        k.filled [c]) := by
  simp only [Sink.put, writeAll_of_room h, Sink.flush, flush, filled, utf8_cons, utf8_nil,
    List.append_nil, List.length_singleton]

/-- A character that does not fit is cut through. -/
theorem put_of_overflow {c : Char} {limit : Nat} (hcapacity : k.capacity = some limit)
    (hsize : k.accepted.size ≤ limit)
    (h : limit < k.accepted.size + (String.utf8EncodeChar c).length) :
    ∃ e, Sink.put k c = (.error e, { k with accepted :=
      k.accepted ++ (String.utf8EncodeChar c).take (limit - k.accepted.size) }) := by
  obtain ⟨e, hwrite⟩ := writeAll_of_overflow hcapacity hsize h
  refine ⟨e, ?_⟩
  simp only [Sink.put, hwrite]

/-- The sink has room for the characters, and none of their flushes is made to fail. -/
structure Suits (k : BoundedSink) (cs : List Char) : Prop where
  room : ∀ limit, k.capacity = some limit → k.accepted.size + (utf8 cs).length ≤ limit
  flush : ∀ n, k.failingFlush = some n → n ≤ k.flushes ∨ k.flushes + cs.length < n

theorem putAll_of_suits {cs : List Char} (h : k.Suits cs) :
    Sink.putAll k cs = (.ok (), k.filled cs) := by
  induction cs generalizing k with
  | nil => simp [Sink.putAll, filled_nil]
  | cons c cs ih =>
    obtain ⟨hroom, hflush⟩ := h
    rw [utf8_cons, List.length_append] at hroom
    rw [List.length_cons] at hflush
    have hfits : k.room (String.utf8EncodeChar c).length = (String.utf8EncodeChar c).length := by
      unfold BoundedSink.room
      split
      · rfl
      · rename_i limit hcapacity
        have hle := hroom limit hcapacity
        omega
    have hflushed : k.failingFlush ≠ some (k.flushes + 1) := by
      intro hfails
      have hne := hflush _ hfails
      omega
    have hrest : (k.filled [c]).Suits cs := by
      refine ⟨?_, ?_⟩
      · intro limit hcapacity
        have hle := hroom limit hcapacity
        have hsize : (k.filled [c]).accepted.size =
            k.accepted.size + (String.utf8EncodeChar c).length := by
          simp [filled, ← Array.length_toList]
        omega
      · intro n hfails
        have hne := hflush n hfails
        simp only [filled, List.length_singleton]
        omega
    simp only [Sink.putAll, put_of_room hfits, if_neg hflushed, ih hrest, filled_filled,
      List.singleton_append]

/-- A sink of limited capacity takes the characters up to the limit, cutting through the one that
passes it; only the characters before that one are flushed. -/
theorem putAll_of_overflow {cs : List Char} {limit : Nat} (stalls : Bool)
    (h : limit < (utf8 cs).length) :
    ∃ e flushes,
      Sink.putAll ({ capacity := some limit, stalls } : BoundedSink) cs =
        (.error e, { accepted := ((utf8 cs).take limit).toArray, flushes,
                     capacity := some limit, stalls }) ∧
      IsGreatest {j | j ≤ cs.length ∧ (utf8 (cs.take j)).length ≤ limit} flushes := by
  obtain ⟨front, c, back, rfl, hfront, hc⟩ := exists_crossing h
  have hsuits : Suits { capacity := some limit, stalls } front := by
    refine ⟨?_, ?_⟩
    · intro limit' hcapacity
      cases hcapacity
      simpa using hfront
    · intro n hfails
      cases hfails
  have htaken := putAll_of_suits hsuits
  have hsize : (filled { capacity := some limit, stalls } front).accepted.size =
      (utf8 front).length := by
    simp [filled]
  rw [← hsize] at hfront hc
  obtain ⟨e, hput⟩ := put_of_overflow rfl hfront hc
  rw [hsize] at hfront hc hput
  refine ⟨e, front.length, ?_, isGreatest_of_crossing hfront hc⟩
  have hbytes : (utf8 (front ++ c :: back)).take limit =
      utf8 front ++ (String.utf8EncodeChar c).take (limit - (utf8 front).length) := by
    rw [utf8_append, utf8_cons, List.take_append, List.take_of_length_le hfront,
      List.take_append_of_le_length (by omega)]
  rw [Sink.putAll_of_refused htaken hput, hbytes]
  simp [filled]

/-- A sink whose `n`-th flush fails has taken `n` characters by then. -/
theorem putAll_of_failing_flush {cs : List Char} {n : Nat} (hpos : 0 < n) (h : n ≤ cs.length) :
    ∃ e, Sink.putAll ({ failingFlush := some n } : BoundedSink) cs =
      (.error e, filled { failingFlush := some n } (cs.take n)) := by
  obtain ⟨n, rfl⟩ := Nat.exists_eq_add_one.mpr hpos
  have hlength : (cs.take n).length = n := by
    rw [List.length_take]
    omega
  have hsuits : Suits { failingFlush := some (n + 1) } (cs.take n) := by
    refine ⟨?_, ?_⟩
    · intro limit hcapacity
      cases hcapacity
    · intro m hfails
      cases hfails
      rw [hlength]
      exact .inr (by simp)
  have hput : Sink.put (filled { failingFlush := some (n + 1) } (cs.take n)) cs[n] =
      (.error (.other "flush failed"), filled { failingFlush := some (n + 1) } (cs.take (n + 1))) := by
    rw [put_of_room rfl, if_pos, filled_filled, List.take_append_getElem]
    simp [filled, hlength]
  have hsplit : cs.take n ++ cs[n] :: cs.drop (n + 1) = cs := by
    rw [← List.drop_eq_getElem_cons, List.take_append_drop]
  have hall : Sink.putAll ({ failingFlush := some (n + 1) } : BoundedSink)
      (cs.take n ++ cs[n] :: cs.drop (n + 1)) = _ :=
    Sink.putAll_of_refused (putAll_of_suits hsuits) hput
  rw [hsplit] at hall
  exact ⟨_, hall⟩

end BoundedSink

end Wordcode

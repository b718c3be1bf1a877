import Gkit.Fan.FanIn
import Gkit.Lib.Shuffles

/-!
# `FanIn` shuffles its inputs

What has been sent on the output is a shuffle of prefixes of the inputs, whether
the context is done or not.  While it is not, whatever a forwarder has taken from
its input is on the output or in its hands, and the output is closed only when
nothing is left.  The wait group counts the forwarders that have not exited,
which is why nobody sends after the close.
-/

namespace Gkit.FanIn

open Gkit.Lib

variable {α : Type} {n : ℕ}

/-- What a forwarder adds to the wait group. -/
def Forwarder.counted : Forwarder α → ℕ
  | .exited => 0
  | _ => 1

/-- What a forwarder has received and not yet sent. -/
def Forwarder.hand : Forwarder α → List α
  | .sending v => [v]
  | _ => []

theorem Forwarder.eq_exited {f : Forwarder α} (h : f.counted = 0) : f = .exited := by
  cases f with
  | exited => rfl
  | receiving | sending | leaving => simp [counted] at h

/-- The items of an input, divided among what its forwarder has sent, what it
holds and what it has yet to receive.  A forwarder that leaves has sent them all
unless the context is done. -/
def Account (cancelled : Bool) (items part : List α) (f : Feed α) : Forwarder α → Prop
  | .receiving => part ++ f.rest = items
  | .sending v => part ++ v :: f.rest = items
  | .leaving => part <+: items ∧
      (cancelled = false → part = items ∧ f.rest = [] ∧ f.chan.closed = true)
  | .exited => part <+: items ∧
      (cancelled = false → part = items ∧ f.rest = [] ∧ f.chan.closed = true)

section Account

variable {cancelled : Bool} {items part : List α} {f g : Feed α} {fw : Forwarder α}

theorem Account.isPrefix (h : Account cancelled items part f fw) : part <+: items := by
  cases fw with
  | receiving => exact ⟨_, h⟩
  | sending v => exact ⟨_, h⟩
  | leaving | exited => exact h.1

theorem Account.complete (h : Account false items part f fw) :
    part ++ fw.hand ++ f.rest = items := by
  cases fw with
  | receiving => simpa [Forwarder.hand, Account] using h
  | sending v => simpa [Forwarder.hand, Account] using h
  | leaving | exited =>
      obtain ⟨rfl, hrest, -⟩ := h.2 rfl
      simp [Forwarder.hand, hrest]

theorem Account.produce (h : Account cancelled items part f fw) (hg : f.produce = some g) :
    Account cancelled items part g fw := by
  have hrest := Feed.rest_produce hg
  have hfinished : (cancelled = false → part = items ∧ f.rest = [] ∧ f.chan.closed = true) →
      cancelled = false → part = items ∧ g.rest = [] ∧ g.chan.closed = true := by
    intro hf hc
    rw [Feed.produce_closed (hf hc).2.2] at hg
    cases hg
  cases fw with
  | receiving => simpa [Account, hrest] using h
  | sending v => simpa [Account, hrest] using h
  | leaving | exited => exact ⟨h.1, hfinished h.2⟩

theorem Account.cancel (h : Account cancelled items part f fw) : Account true items part f fw := by
  cases fw with
  | receiving | sending => exact h
  | leaving | exited => exact ⟨h.1, nofun⟩

end Account

/-- The forwarders have sent `parts` of the items. -/
structure Inv (items : Fin n → List α) (s : Sys α n) (got : List α) (parts : Fin n → List α) :
    Prop where
  shuffled : Shuffle parts (got ++ s.out.buf)
  accounts : ∀ i, Account s.cancelled (items i) (parts i) (s.inputs i) (s.forwarders i)
  counts : s.wg.count = tally Forwarder.counted s.forwarders
  waited : s.closer ≠ .waiting → ∀ i, s.forwarders i = .exited
  closes : s.out.closed = true ↔ s.closer = .exited
  alive : s.crashed = none

variable {items parts : Fin n → List α} {s s' : Sys α n} {got : List α}

theorem inv_fanIn (inputs : Fin n → Feed α) :
    Inv (fun i => (inputs i).rest) (fanIn inputs) [] fun _ => [] where
  shuffled := .nil
  accounts := fun _ => rfl
  counts := by simp [fanIn, tally, Forwarder.counted]
  waited := fun hne => absurd rfl hne
  closes := by simp [fanIn]
  alive := rfl

theorem Inv.running (h : Inv items s got parts) {i : Fin n} (hi : s.forwarders i ≠ .exited) :
    s.closer = .waiting ∧ s.out.closed = false := by
  have hwaiting : s.closer = .waiting := by
    by_contra hne
    exact hi (h.waited hne i)
  refine ⟨hwaiting, ?_⟩
  by_contra hclosed
  have hexited := h.closes.mp (by simpa using hclosed)
  rw [hwaiting] at hexited
  cases hexited

theorem Inv.count_pos (h : Inv items s got parts) {i : Fin n} (hi : s.forwarders i = .leaving) :
    0 < s.wg.count := by
  have hle := le_tally Forwarder.counted s.forwarders i
  have hcounts := h.counts
  simp only [hi, Forwarder.counted] at hle
  omega

theorem Inv.all_exited (h : Inv items s got parts) (hzero : s.wg.count = 0) (i : Fin n) :
    s.forwarders i = .exited := by
  have hle := le_tally Forwarder.counted s.forwarders i
  have hcounts := h.counts
  exact Forwarder.eq_exited (by omega)

/-- One forwarder moves on, with its input, its part of the output and the wait
group. -/
theorem Inv.advance (h : Inv items s got parts) {i : Fin n} (hi : s.forwarders i ≠ .exited)
    (feed : Feed α) (fw : Forwarder α) (part : List α) (wg : WaitGroup) (out : Chan α)
    (haccount : Account s.cancelled (items i) part feed fw)
    (hshuffled : Shuffle (Function.update parts i part) (got ++ out.buf))
    (hcount : wg.count + (s.forwarders i).counted = s.wg.count + fw.counted)
    (hopen : out.closed = s.out.closed) :
    Inv items { s with inputs := Function.update s.inputs i feed,
                       forwarders := Function.update s.forwarders i fw, wg := wg, out := out }
      got (Function.update parts i part) where
  shuffled := hshuffled
  accounts j := by
    by_cases hj : j = i
    · subst hj
      simpa using haccount
    · simpa [hj] using h.accounts j
  counts := by
    have htally := tally_update Forwarder.counted s.forwarders i fw
    have hcounts := h.counts
    dsimp only
    omega
  waited hne := absurd (h.running hi).1 hne
  closes := by
    rw [hopen]
    exact h.closes
  alive := h.alive

/-- One forwarder moves on and leaves its input and the output alone. -/
theorem Inv.setForwarder (h : Inv items s got parts) {i : Fin n} (hi : s.forwarders i ≠ .exited)
    (fw : Forwarder α) (wg : WaitGroup)
    (haccount : Account s.cancelled (items i) (parts i) (s.inputs i) fw)
    (hcount : wg.count + (s.forwarders i).counted = s.wg.count + fw.counted) :
    Inv items ({ s with wg := wg }.setForwarder i fw) got parts := by
  have hadvance := h.advance hi (s.inputs i) fw (parts i) wg s.out haccount
    (by simpa [Function.update_eq_self] using h.shuffled) hcount rfl
  simp only [Function.update_eq_self] at hadvance
  exact hadvance

theorem inv_step {x : Action n} (h : Inv items s got parts) (hstep : s.step x = some s') :
    ∃ parts', Inv items s' (got ++ s.consumed x) parts' := by
  obtain ⟨vs, hvs, heffect⟩ := effect_of_step hstep
  rw [hvs]
  cases heffect with
  | @produced i f hf =>
      rw [List.append_nil]
      refine ⟨parts, { h with accounts := fun j => ?_ }⟩
      by_cases hj : j = i
      · subst hj
        simpa [Sys.setInput] using (h.accounts j).produce hf
      · simpa [Sys.setInput, hj] using h.accounts j
  | @received i v f hi hrest =>
      have haccount := h.accounts i
      rw [hi, Account, hrest] at haccount
      have hadvance := h.advance (by simp [hi]) f (.sending v) (parts i) s.wg s.out haccount
        (by simpa using h.shuffled) (by simp [hi, Forwarder.counted]) rfl
      rw [List.append_nil]
      exact ⟨_, hadvance⟩
  | @ended i hi hrest hclosed =>
      have haccount := h.accounts i
      rw [hi, Account, hrest, List.append_nil] at haccount
      rw [List.append_nil]
      exact ⟨parts, h.setForwarder (by simp [hi]) .leaving s.wg
        ⟨haccount ▸ List.prefix_rfl, fun _ => ⟨haccount, hrest, hclosed⟩⟩
        (by simp [hi, Forwarder.counted])⟩
  | @sent i v hi hopen hroom =>
      have haccount := h.accounts i
      rw [hi, Account] at haccount
      have hlive : s.forwarders i ≠ .exited := by simp [hi]
      have hadvance := h.advance hlive (s.inputs i) .receiving (parts i ++ [v]) s.wg
        { s.out with buf := s.out.buf ++ [v] } (by simpa [Account] using haccount)
        (by simpa using h.shuffled.snoc i v) (by simp [hi, Forwarder.counted]) rfl
      rw [Function.update_eq_self] at hadvance
      rw [List.append_nil]
      exact ⟨_, hadvance⟩
  | @sendCrashes i v text hi hclosed =>
      have hlive : s.forwarders i ≠ .exited := by simp [hi]
      have hopen := (h.running hlive).2
      rw [hopen] at hclosed
      cases hclosed
  | @gaveUp i hi hcancelled =>
      have hlive : s.forwarders i ≠ .exited := by rcases hi with hi | ⟨v, hi⟩ <;> simp [hi]
      have hcounted : (s.forwarders i).counted = 1 := by
        rcases hi with hi | ⟨v, hi⟩ <;> rw [hi] <;> rfl
      rw [List.append_nil]
      exact ⟨parts, h.setForwarder hlive .leaving s.wg
        ⟨(h.accounts i).isPrefix, fun hc => by simp [hcancelled] at hc⟩ (by rw [hcounted]; rfl)⟩
  | @left i hi hpos =>
      have haccount := h.accounts i
      rw [hi] at haccount
      rw [List.append_nil]
      exact ⟨parts, h.setForwarder (by simp [hi]) .exited ⟨s.wg.count - 1⟩ haccount
        (by simp [hi, Forwarder.counted])⟩
  | leaveCrashes hi hzero => exact absurd (h.count_pos hi) (not_lt.mpr hzero)
  | waited hc hzero =>
      rw [List.append_nil]
      refine ⟨parts, { h with waited := fun _ => h.all_exited hzero, closes := ?_ }⟩
      have hcloses := h.closes
      simpa [hc] using hcloses
  | closed hc hopen =>
      rw [List.append_nil]
      exact ⟨parts, { h with waited := fun _ => h.waited (by simp [hc]), closes := by simp }⟩
  | closeCrashes hc hclosed =>
      have hexited := h.closes.mp hclosed
      rw [hc] at hexited
      cases hexited
  | @consumed v buf hbuf =>
      refine ⟨parts, { h with shuffled := ?_ }⟩
      have hshuffled := h.shuffled
      rw [hbuf] at hshuffled
      simpa using hshuffled
  | drained hbuf hclosed =>
      rw [List.append_nil]
      exact ⟨parts, h⟩
  | cancelled =>
      rw [List.append_nil]
      exact ⟨parts, { h with accounts := fun i => (h.accounts i).cancel }⟩

/-- After any run, what was delivered is a shuffle of prefixes of the inputs, and
nothing has panicked.  Nobody can send on a closed output.  While the context is
not done nothing is lost, and a closed output has had everything. -/
theorem fanIn_shuffles (inputs : Fin n → Feed α) {xs : List (Action n)} {s : Sys α n}
    (h : run Sys.step (fanIn inputs) xs = some s) :
    s.crashed = none ∧ (s.out.closed = true → ∀ i, s.step (.send i) = none) ∧
      ∃ parts : Fin n → List α,
        Shuffle parts (received (fanIn inputs) xs ++ s.out.buf) ∧
        (∀ i, parts i <+: (inputs i).rest) ∧
        (s.cancelled = false → ∀ i,
          parts i ++ (s.forwarders i).hand ++ (s.inputs i).rest = (inputs i).rest) ∧
        (s.cancelled = false → s.out.closed = true → ∀ i,
          (s.inputs i).chan.closed = true ∧ parts i = (inputs i).rest) := by
  have hinv : ∃ parts, Inv (fun i => (inputs i).rest) s (received (fanIn inputs) xs) parts := by
    refine run_collect (P := fun s got => ∃ parts, Inv (fun i => (inputs i).rest) s got parts)
      ?_ ⟨_, inv_fanIn inputs⟩ (C := fun _ _ => True) (along_of_forall fun _ _ _ => trivial) h
    rintro s got x t ⟨parts, hinv⟩ - hstep
    exact inv_step hinv hstep
  obtain ⟨parts, hinv⟩ := hinv
  have hexited : s.out.closed = true → ∀ i, s.forwarders i = .exited := by
    intro hclosed
    apply hinv.waited
    rw [hinv.closes.mp hclosed]
    simp
  refine ⟨hinv.alive, fun hclosed i => ?_, parts, hinv.shuffled,
    fun i => (hinv.accounts i).isPrefix, fun hc i => ?_, fun hc hclosed i => ?_⟩
  · simp [Sys.step, Sys.send, hexited hclosed i]
  · have haccount := hinv.accounts i
    rw [hc] at haccount
    exact haccount.complete
  · have haccount := hinv.accounts i
    rw [hexited hclosed i] at haccount
    obtain ⟨hpart, -, hended⟩ := haccount.2 hc
    exact ⟨hended, hpart⟩

/-- Two inputs, one of them without a buffer. -/
def twoInputs : Fin 2 → Feed ℕ
  | 0 => .ofList 0 [1, 2]
  | 1 => .ofList 3 [10]

/-- The items of the first input go around the one of the second. -/
def twoSteps : List (Action 2) :=
  [.produce 1, .receive 0, .receive 1, .send 0, .send 1, .receive 0, .consume, .send 0,
    .produce 0, .produce 1, .receive 0, .receive 1, .leave 1, .leave 0, .wait, .close, .consume]

theorem two_inputs_shuffled :
    ∃ s, run Sys.step (fanIn twoInputs) twoSteps = some s ∧ s.out.closed = true ∧
      received (fanIn twoInputs) twoSteps ++ s.out.buf = [1, 10, 2] ∧
      ∃ parts : Fin 2 → List ℕ, Shuffle parts [1, 10, 2] ∧ parts 0 = [1, 2] ∧ parts 1 = [10] := by
  have hrun : (run Sys.step (fanIn twoInputs) twoSteps).map
      (fun s => (s.cancelled, s.out.closed, received (fanIn twoInputs) twoSteps ++ s.out.buf)) =
        some (false, true, [1, 10, 2]) := rfl
  obtain ⟨s, hs, hview⟩ := Option.map_eq_some_iff.mp hrun
  obtain ⟨hc, hview⟩ := Prod.mk.inj hview
  obtain ⟨hclosed, hdelivered⟩ := Prod.mk.inj hview
  obtain ⟨-, -, parts, hshuffle, -, -, hall⟩ := fanIn_shuffles twoInputs hs
  rw [hdelivered] at hshuffle
  exact ⟨s, hs, hclosed, hdelivered, parts, hshuffle, (hall hc hclosed 0).2, (hall hc hclosed 1).2⟩

end Gkit.FanIn

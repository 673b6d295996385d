import ModelHost.Completion.Sampler

/-!
Which token is chosen. The first of the greatest scores comes out on top of every stage: ranking
puts it first, of what is ranked the first is always kept, and a temperature of zero or less keeps
it alone. So the choice depends on the logits and on how often each token was there, and on nothing
else. No arithmetic is used for this, which is why the operations may return anything at all here.
-/

namespace ModelHost.Completion

namespace Sampler

section Best

theorem best?_eq_none_iff {cs : List Candidate} : best? cs = none ↔ cs = [] := by
  cases cs <;> simp [best?]

private theorem better_assoc (a b c : Candidate) :
    better (better a b) c = better a (better b c) := by
  by_cases hab : a.logit.rank < b.logit.rank
  · by_cases hbc : b.logit.rank < c.logit.rank
    · have hac : a.logit.rank < c.logit.rank := Int.lt_trans hab hbc
      simp [better, hab, hbc, hac]
    · simp [better, hab, hbc]
  · by_cases hbc : b.logit.rank < c.logit.rank
    · simp [better, hab, hbc]
    · have hac : ¬a.logit.rank < c.logit.rank := by omega
      simp [better, hab, hbc, hac]

instance : Std.Associative better := ⟨better_assoc⟩

private theorem best?_cons (c : Candidate) (cs : List Candidate) :
    best? (c :: cs) = some ((best? cs).elim c (better c)) := by
  cases cs with
  | nil => rfl
  | cons d rest => exact congrArg some List.foldl_assoc

private theorem best?_cons_of_le {c : Candidate} {cs : List Candidate}
    (h : ∀ d ∈ cs, d.logit.rank ≤ c.logit.rank) : best? (c :: cs) = some c := by
  induction cs with
  | nil => rfl
  | cons d rest ih =>
    have hd : better c d = c := if_neg (Int.not_lt.mpr (h d (by simp)))
    have hrest := ih fun e he => h e (List.mem_cons_of_mem d he)
    simpa only [best?, List.foldl_cons, hd] using hrest

theorem exists_of_best? {cs : List Candidate} {c : Candidate} (h : best? cs = some c) :
    ∃ front back, cs = front ++ c :: back ∧ (∀ a ∈ front, a.logit.rank < c.logit.rank) ∧
      ∀ b ∈ back, b.logit.rank ≤ c.logit.rank := by
  induction cs generalizing c with
  | nil => nomatch h
  | cons d rest ih =>
    rw [best?_cons] at h
    cases hbest : best? rest with
    | none =>
      obtain rfl : d = c := by simpa [hbest] using h
      obtain rfl := best?_eq_none_iff.mp hbest
      exact ⟨[], [], rfl, by simp, by simp⟩
    | some e =>
      obtain ⟨front, back, rfl, hfront, hback⟩ := ih hbest
      have hbetter : better d e = c := by simpa [hbest] using h
      unfold better at hbetter
      split at hbetter
      next hlt =>
        obtain rfl := hbetter
        exact ⟨d :: front, back, rfl, List.forall_mem_cons.mpr ⟨hlt, hfront⟩, hback⟩
      next hle =>
        obtain rfl := hbetter
        refine ⟨[], front ++ e :: back, rfl, by simp, ?_⟩
        intro b hb
        have hbe : b.logit.rank ≤ e.logit.rank := by
          rcases List.mem_append.mp hb with hb | hb
          · exact Int.le_of_lt (hfront b hb)
          · rcases List.mem_cons.mp hb with rfl | hb
            · exact Int.le_refl _
            · exact hback b hb
        omega

theorem mem_of_best? {cs : List Candidate} {c : Candidate} (h : best? cs = some c) : c ∈ cs := by
  obtain ⟨front, back, rfl, -⟩ := exists_of_best? h
  exact List.mem_append_right front (List.mem_cons_self ..)

end Best

section Ranked

variable (cs : List Candidate)

def outranks (a b : Candidate) : Bool := b.logit.rank ≤ a.logit.rank

private theorem outranks_trans (a b c : Candidate) (hab : outranks a b = true)
    (hbc : outranks b c = true) :
    outranks a c = true := by
  simp only [outranks, decide_eq_true_eq] at *
  omega

private theorem outranks_total (a b : Candidate) : (outranks a b || outranks b a) = true := by
  simp only [outranks, Bool.or_eq_true, decide_eq_true_eq]
  omega

theorem ranked_pairwise : (ranked cs).Pairwise fun a b => b.logit.rank ≤ a.logit.rank := by
  have hsorted := List.pairwise_mergeSort outranks_trans outranks_total cs
  exact hsorted.imp fun h => of_decide_eq_true h

theorem head?_ranked : (ranked cs).head? = best? cs := by
  induction cs with
  | nil => simp [ranked, best?]
  | cons c rest ih =>
    obtain ⟨front, back, hranked, hrest, hfront⟩ :=
      List.mergeSort_cons outranks_trans outranks_total c rest
    have hall : ranked (c :: rest) = front ++ c :: back := hranked
    have hothers : ranked rest = front ++ back := hrest
    rw [best?_cons, ← ih, hall, hothers]
    cases front with
    | nil =>
      -- What is ranked behind a candidate is not better than it.
      have hback : ∀ d ∈ back, better c d = c := by
        intro d hd
        have hsorted := ranked_pairwise (c :: rest)
        rw [hall] at hsorted
        exact if_neg (Int.not_lt.mpr (List.rel_of_pairwise_cons hsorted hd))
      cases back with
      | nil => rfl
      | cons d back => exact congrArg some (hback d (by simp)).symm
    | cons d front =>
      have hless : c.logit.rank < d.logit.rank := by simpa [outranks] using hfront d (by simp)
      exact congrArg some (if_pos hless).symm

/-- However few of the ranked candidates are kept, if any are, the best one stays the same. -/
theorem best?_take_ranked (n : Nat) : best? ((ranked cs).take (n + 1)) = best? cs := by
  have hsorted := ranked_pairwise cs
  rw [← head?_ranked cs]
  cases hranked : ranked cs with
  | nil => rfl
  | cons top rest =>
    rw [hranked] at hsorted
    rw [List.take_succ_cons]
    exact best?_cons_of_le fun d hd =>
      List.rel_of_pairwise_cons hsorted (List.mem_of_mem_take hd)

end Ranked

section Stages

variable (ops : Arithmetic) (s : Sampler) {cs : List Candidate}

theorem keepTopWith_cases (p : Single) (cs : List Candidate) :
    keepTopWith ops p cs = cs ∨ ∃ n, keepTopWith ops p cs = (ranked cs).take (n + 1) := by
  unfold keepTopWith
  split
  next => exact .inl rfl
  next =>
    right
    split
    next hnone => exact ⟨0, by rw [hnone]; rfl⟩
    next hone => exact ⟨0, by rw [hone]; rfl⟩
    next top rest _ hmore =>
      rw [hmore]
      dsimp only
      exact ⟨_, congrArg ((top :: rest).take ·) (Nat.sub_add_cancel (Nat.le_max_right _ _)).symm⟩

theorem best?_keepTopWith (p : Single) : best? (keepTopWith ops p cs) = best? cs := by
  rcases keepTopWith_cases ops p cs with hall | ⟨n, hsome⟩
  · rw [hall]
  · rw [hsome, best?_take_ranked]

theorem best?_heatWith {temperature : Single} (h : temperature.le Single.zero = true) :
    best? (heatWith ops temperature cs) = best? cs := by
  rw [heatWith, if_pos h]
  cases best? cs <;> rfl

/-- Only the penalties have a say in which candidate is the best one. -/
theorem best?_remainingWith
    (htemperature : ∀ t, s.temperature = some t → t.le Single.zero = true) (logits : List Single) :
    best? (s.remainingWith ops logits) = best? (s.penalizeWith ops (candidates logits)) := by
  unfold remainingWith
  cases s.topP with
  | none =>
    cases htemp : s.temperature with
    | none => rfl
    | some t => exact best?_heatWith ops (htemperature t htemp)
  | some p =>
    cases htemp : s.temperature with
    | none => exact best?_keepTopWith ops p
    | some t => exact (best?_heatWith ops (htemperature t htemp)).trans (best?_keepTopWith ops p)

end Stages

section History

def ofHistory (r : Request) (history : List Token) : Sampler :=
  history.foldl accept (ofRequest r)

theorem counts_accept (s : Sampler) (token other : Token) :
    (s.accept token).counts[other]? =
      if token = other then some (s.counts[other]?.getD 0 + 1) else s.counts[other]? := by
  unfold accept
  rw [Std.TreeMap.getElem?_insert]
  by_cases htoken : token = other
  · subst htoken
    simp [Std.TreeMap.getD_eq_getD_getElem?]
  · simp [htoken]

private theorem counts_foldl_accept (s : Sampler) (history : List Token) (token : Token) :
    (history.foldl accept s).counts[token]? =
      if history.count token = 0 then s.counts[token]?
      else some (s.counts[token]?.getD 0 + UInt32.ofNat (history.count token)) := by
  induction history generalizing s with
  | nil => simp
  | cons first rest ih =>
    rw [List.foldl_cons, ih, counts_accept]
    by_cases hfirst : first = token
    · subst hfirst
      by_cases hrest : rest.count first = 0
      · simp [hrest]
      · simp [hrest, UInt32.ofNat_add, UInt32.add_assoc, UInt32.add_comm 1]
    · simp [hfirst]

theorem counts_ofHistory (r : Request) (history : List Token) (token : Token) :
    (ofHistory r history).counts[token]? =
      if history.count token = 0 then none else some (UInt32.ofNat (history.count token)) := by
  simp [ofHistory, counts_foldl_accept, ofRequest]

theorem toNat_getD_counts_ofHistory (r : Request) {history : List Token} {token : Token}
    (h : history.count token < UInt32.size) :
    ((ofHistory r history).counts.getD token 0).toNat = history.count token := by
  rw [Std.TreeMap.getD_eq_getD_getElem?, counts_ofHistory]
  split
  next hnone => simp [hnone]
  next => exact UInt32.toNat_ofNat_of_lt' h

private theorem ofHistory_eq (r : Request) (history : List Token) :
    ofHistory r history = { ofRequest r with counts := (ofHistory r history).counts } := by
  suffices hall : ∀ s : Sampler,
      history.foldl accept s = { s with counts := (history.foldl accept s).counts } from
    hall (ofRequest r)
  induction history with
  | nil => exact fun _ => rfl
  | cons first rest ih => exact fun s => ih (s.accept first)

end History

end Sampler

/-- What is left of the logit of a token that was there so many times. -/
def Request.score (ops : Arithmetic) (r : Request) (count : Nat) (logit : Single) : Single :=
  let frequency := r.frequency.getD Single.zero
  let presence := r.presence.getD Single.zero
  if frequency.isZero ∧ presence.isZero ∨ count = 0 then logit
  else ops.sub logit (ops.add (ops.mul (ops.ofCount (UInt32.ofNat count)) frequency) presence)

def Request.scores (ops : Arithmetic) (r : Request) (history : List Token) (logits : List Single) :
    List Single :=
  logits.mapIdx fun i logit => r.score ops (history.count (Int32.ofNat i)) logit

/-- Says that the score at a place is the first of the greatest ones in the total order. -/
structure FirstGreatest (scores : List Single) (place : Nat) : Prop where
  inside : place < scores.length
  greatest : ∀ score ∈ scores, score.rank ≤ scores[place].rank
  first : ∀ score ∈ scores.take place, score.rank < scores[place].rank

namespace FirstGreatest

variable {scores : List Single} {place place' : Nat}

instance : Decidable (FirstGreatest scores place) :=
  decidable_of_iff
    (∃ _ : place < scores.length, (∀ score ∈ scores, score.rank ≤ scores[place].rank) ∧
      ∀ score ∈ scores.take place, score.rank < scores[place].rank)
    ⟨fun ⟨hinside, hgreatest, hfirst⟩ => ⟨hinside, hgreatest, hfirst⟩,
      fun h => ⟨h.inside, h.greatest, h.first⟩⟩

private theorem not_lt (h : FirstGreatest scores place) (h' : FirstGreatest scores place') :
    ¬place < place' := by
  intro hlt
  have hinside := h.inside
  have hbefore : scores[place] ∈ scores.take place' :=
    List.mem_take_iff_getElem.mpr ⟨place, by omega, rfl⟩
  have hless := h'.first _ hbefore
  have hgreatest := h.greatest _ (List.getElem_mem h'.inside)
  omega

theorem unique (h : FirstGreatest scores place) (h' : FirstGreatest scores place') :
    place = place' :=
  Nat.le_antisymm (Nat.not_lt.mp (h'.not_lt h)) (Nat.not_lt.mp (h.not_lt h'))

end FirstGreatest

namespace Sampler

private theorem penalizedWith_ofHistory (ops : Arithmetic) (r : Request) (history : List Token)
    (c : Candidate) :
    (ofHistory r history).penalizedWith ops c =
      if history.count c.token = 0 then c.logit
      else ops.sub c.logit (ops.add (ops.mul (ops.ofCount (UInt32.ofNat (history.count c.token)))
        (r.frequency.getD Single.zero)) (r.presence.getD Single.zero)) := by
  unfold penalizedWith
  rw [counts_ofHistory, ofHistory_eq]
  by_cases hcount : history.count c.token = 0
  · simp [hcount]
  · simp [hcount, ofRequest]

private theorem penalizeWith_ofHistory (ops : Arithmetic) (r : Request) (history : List Token)
    (logits : List Single) :
    (ofHistory r history).penalizeWith ops (candidates logits) =
      logits.mapIdx fun i logit =>
        ⟨Int32.ofNat i, r.score ops (history.count (Int32.ofNat i)) logit⟩ := by
  have hneutral :
      ((ofHistory r history).frequency.isZero && (ofHistory r history).presence.isZero) =
        ((r.frequency.getD Single.zero).isZero && (r.presence.getD Single.zero).isZero) := by
    rw [ofHistory_eq]
    rfl
  apply List.ext_getElem?
  intro i
  unfold penalizeWith candidates
  rw [hneutral]
  split
  next hzero =>
    rw [Bool.and_eq_true] at hzero
    simp [Request.score, hzero]
  next hzero =>
    rw [Bool.and_eq_true] at hzero
    simp [Request.score, hzero, penalizedWith_ofHistory, Function.comp_def]

private theorem firstGreatest_of_best? {cs : List Candidate} {c : Candidate}
    (h : best? cs = some c) :
    ∃ i, cs[i]? = some c ∧ FirstGreatest (cs.map (·.logit)) i := by
  obtain ⟨front, back, rfl, hfront, hback⟩ := exists_of_best? h
  refine ⟨front.length, by simp, by simp, ?_, ?_⟩
  · intro score hscore
    simp only [List.mem_map, List.mem_append, List.mem_cons] at hscore
    obtain ⟨a, ha | rfl | hb, rfl⟩ := hscore
    · simpa using Int.le_of_lt (hfront a ha)
    · simp
    · simpa using hback a hb
  · simpa using hfront

theorem sampleWith_ofHistory (ops : Arithmetic) {r : Request} (history : List Token)
    (logits : List Single) (htemperature : ∀ t, r.temperature = some t → t.le Single.zero = true) :
    (ofHistory r history).sampleWith ops logits =
      (best? (logits.mapIdx fun i logit =>
        ⟨Int32.ofNat i, r.score ops (history.count (Int32.ofNat i)) logit⟩)).map (·.token) := by
  have hsame : ∀ t, (ofHistory r history).temperature = some t → t.le Single.zero = true := by
    rw [ofHistory_eq]
    exact htemperature
  rw [sampleWith, best?_remainingWith ops _ hsame, penalizeWith_ofHistory]

theorem exists_sampleWith (ops : Arithmetic) {r : Request} (history : List Token)
    {logits : List Single} (hsome : logits ≠ [])
    (htemperature : ∀ t, r.temperature = some t → t.le Single.zero = true) :
    ∃ place, FirstGreatest (r.scores ops history logits) place ∧
      (ofHistory r history).sampleWith ops logits = some (Int32.ofNat place) := by
  rw [sampleWith_ofHistory ops history logits htemperature]
  generalize hcs : (logits.mapIdx fun i logit => (⟨Int32.ofNat i,
    r.score ops (history.count (Int32.ofNat i)) logit⟩ : Candidate)) = cs
  have hscores : cs.map (·.logit) = r.scores ops history logits := by
    rw [← hcs, Request.scores]
    apply List.ext_getElem?
    simp [Function.comp_def]
  cases hbest : best? cs with
  | none => simp [← hcs, best?_eq_none_iff, hsome] at hbest
  | some c =>
    obtain ⟨place, hplace, hgreatest⟩ := firstGreatest_of_best? hbest
    rw [hscores] at hgreatest
    rw [← hcs, List.getElem?_mapIdx, Option.map_eq_some_iff] at hplace
    obtain ⟨logit, -, rfl⟩ := hplace
    exact ⟨place, hgreatest, rfl⟩

end Sampler

/-- The token that is chosen is the first one with the greatest score, and the scores take nothing
into account but the penalties and how often each token was there. Neither a weight to reach nor a
temperature of zero or less has a say in it, nor the order in which the tokens came. -/
theorem sample_first_greatest (r : Request) (history : List Token) (logits : List Single)
    (hlength : logits.length ≤ 0x80000000)
    (hcounts : ∀ token, history.count token < UInt32.size)
    (htemperature : ∀ t, r.temperature = some t → t.le Single.zero = true) :
    let s := Sampler.ofHistory r history
    (∀ token, (s.counts.getD token 0).toNat = history.count token) ∧
      s.sample logits = s.sampleWith .single logits ∧
      ∀ ops : Arithmetic,
        (logits = [] → s.sampleWith ops logits = none) ∧
        (logits ≠ [] → ∃ place token, FirstGreatest (r.scores ops history logits) place ∧
          token.toInt = (place : Int) ∧ s.sampleWith ops logits = some token) ∧
        ∀ topP temperature history', (∀ t, temperature = some t → t.le Single.zero = true) →
          history'.Perm history →
          (Sampler.ofHistory { r with topP, temperature } history').sampleWith ops logits =
            s.sampleWith ops logits := by
  intro s
  refine ⟨fun token => Sampler.toNat_getD_counts_ofHistory r (hcounts token),
    rfl, fun ops => ⟨?_, ?_, ?_⟩⟩
  · rintro rfl
    rw [Sampler.sampleWith_ofHistory ops history [] htemperature]
    rfl
  · intro hsome
    obtain ⟨place, hgreatest, hsample⟩ :=
      Sampler.exists_sampleWith ops history hsome htemperature
    have hplace : place < logits.length := by simpa [Request.scores] using hgreatest.inside
    have hint := Int32.toInt_ofNat_of_lt (Nat.lt_of_lt_of_le hplace hlength)
    exact ⟨place, _, hgreatest, hint, hsample⟩
  · intro topP temperature history' htemperature' hperm
    rw [Sampler.sampleWith_ofHistory ops history' logits htemperature',
      Sampler.sampleWith_ofHistory ops history logits htemperature]
    simp only [hperm.count_eq]
    rfl

def penalizingRequest : Request where
  prompt := ""
  frequency := some Single.one
  presence := some ⟨0x3F000000⟩
  topP := some ⟨0x3F000000⟩
  temperature := some Single.zero

/-- Two falls behind 1.8 when it loses three halves. -/
theorem sample_first_greatest_penalized :
    let logits : List Single := [⟨0x40000000⟩, ⟨0x3FE66666⟩]
    logits.length ≤ 0x80000000 ∧ (∀ token : Token, [0].count token < UInt32.size) ∧
      (∀ t, penalizingRequest.temperature = some t → t.le Single.zero = true) ∧
      (Sampler.ofHistory penalizingRequest [0]).sample logits = some 1 := by
  intro logits
  have hlength : logits.length ≤ 0x80000000 := by decide
  have hcounts : ∀ token : Token, [0].count token < UInt32.size := fun token =>
    Nat.lt_of_le_of_lt List.count_le_length (by decide)
  have htemperature : ∀ t, penalizingRequest.temperature = some t → t.le Single.zero = true := by
    rintro t ⟨⟩
    decide
  refine ⟨hlength, hcounts, htemperature, ?_⟩
  obtain ⟨-, hsingle, hall⟩ :=
    sample_first_greatest penalizingRequest [0] logits hlength hcounts htemperature
  obtain ⟨-, hsome, -⟩ := hall .single
  obtain ⟨place, token, hgreatest, htoken, hsample⟩ := hsome (by simp [logits])
  obtain rfl : place = 1 := hgreatest.unique (by decide +kernel)
  obtain rfl : token = 1 := Int32.toInt_inj.mp htoken
  rw [hsingle, hsample]

/-- A temperature that is no number is not positive either, and yet every logit is divided by it:
nothing is left to tell the logits apart by. -/
theorem sample_not_greatest_of_nan :
    let r : Request := { prompt := "", temperature := some ⟨0x7FC00000⟩ }
    (∀ t, r.temperature = some t → Single.zero.lt t = false) ∧
      FirstGreatest (r.scores .single [] [Single.zero, Single.one]) 1 ∧
      (Sampler.ofHistory r []).sample [Single.zero, Single.one] = some 0 := by
  refine ⟨?_, by decide +kernel, by decide +kernel⟩
  rintro t ⟨⟩
  decide

end ModelHost.Completion

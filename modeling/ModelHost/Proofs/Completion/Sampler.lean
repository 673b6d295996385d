import Mathlib.Data.List.Perm.Subperm
import ModelHost.Proofs.Completion.Selection

/-!
The sampler always has a choice. A stage may change logits, put candidates in another order and drop
some of them, but it brings in no token, has none a second time and never drops the last candidate.
Nothing is asked of the arithmetic for this, so that weights that add up to nothing and comparisons
that NaNs make fail do no harm: there is a next token exactly where there are logits.
-/

namespace ModelHost.Completion.Sampler

inductive Stage where
  | penalties
  | topP (p : Single)
  | temperature (t : Single)

/-- Says what may become of candidates on the way: the tokens of those that are left were there
before and at least as often, and some are left if there were some. -/
structure Narrows (before after : List Candidate) : Prop where
  tokens : (after.map (·.token)).Subperm (before.map (·.token))
  remain : before ≠ [] → after ≠ []

/-- Says that candidates are for some of so many tokens, and no two of them for the same. -/
structure Selection (count : Nat) (cs : List Candidate) : Prop where
  distinct : (cs.map (·.token)).Nodup
  inside : ∀ c ∈ cs, 0 ≤ c.token.toInt ∧ c.token.toInt < count

section Stages

variable (ops : Arithmetic) (s : Sampler)

def passWith (cs : List Candidate) : Stage → List Candidate
  | .penalties => s.penalizeWith ops cs
  | .topP p => keepTopWith ops p cs
  | .temperature t => heatWith ops t cs

def stages : List Stage :=
  .penalties :: (s.topP.toList.map .topP ++ s.temperature.toList.map .temperature)

theorem remainingWith_eq_foldl (logits : List Single) :
    s.remainingWith ops logits = s.stages.foldl (s.passWith ops) (candidates logits) := by
  unfold remainingWith stages
  cases s.topP <;> cases s.temperature <;> rfl

end Stages

namespace Narrows

variable {cs before after : List Candidate}

theorem refl (cs : List Candidate) : Narrows cs cs := ⟨List.Subperm.refl _, id⟩

theorem trans (h : Narrows cs before) (h' : Narrows before after) : Narrows cs after :=
  ⟨h'.tokens.trans h.tokens, h'.remain ∘ h.remain⟩

private theorem of_tokens_eq (h : after.map (·.token) = before.map (·.token)) :
    Narrows before after where
  tokens := h ▸ List.Subperm.refl _
  remain hsome hnone := by
    rw [hnone, List.map_nil, eq_comm, List.map_eq_nil_iff] at h
    exact hsome h

theorem eq_nil_iff (h : Narrows before after) : after = [] ↔ before = [] := by
  constructor
  · exact fun hnone => by_contra fun hsome => h.remain hsome hnone
  · rintro rfl
    have htokens := h.tokens
    rwa [List.map_nil, List.subperm_nil, List.map_eq_nil_iff] at htokens

theorem of_keepTopWith (ops : Arithmetic) (p : Single) (cs : List Candidate) :
    Narrows cs (keepTopWith ops p cs) := by
  rcases keepTopWith_cases ops p cs with hall | ⟨n, hsome⟩
  · rw [hall]
    exact refl cs
  · rw [hsome]
    constructor
    · have hkept := (List.take_sublist (n + 1) (ranked cs)).map (·.token)
      have hranked := (List.mergeSort_perm cs outranks).map (·.token)
      exact hkept.subperm.trans hranked.subperm
    · intro hne hnone
      -- What is kept of the ranked candidates has the same best one as all of them.
      have hbest := best?_take_ranked cs n
      rw [best?_eq_none_iff.mpr hnone] at hbest
      exact hne (best?_eq_none_iff.mp hbest.symm)

theorem of_heatWith (ops : Arithmetic) (t : Single) (cs : List Candidate) :
    Narrows cs (heatWith ops t cs) := by
  unfold heatWith
  split
  next =>
    cases hbest : best? cs with
    | none =>
      obtain rfl := best?_eq_none_iff.mp hbest
      exact refl []
    | some c =>
      have htoken : c.token ∈ cs.map (·.token) := List.mem_map_of_mem (mem_of_best? hbest)
      exact ⟨List.singleton_subperm_iff.mpr htoken, fun _ => List.cons_ne_nil c []⟩
  next => exact of_tokens_eq (by simp [Function.comp_def])

theorem of_penalizeWith (ops : Arithmetic) (s : Sampler) (cs : List Candidate) :
    Narrows cs (s.penalizeWith ops cs) := by
  unfold penalizeWith
  split
  next => exact refl cs
  next => exact of_tokens_eq (by simp [Function.comp_def])

theorem of_passWith (ops : Arithmetic) (s : Sampler) (cs : List Candidate) (stage : Stage) :
    Narrows cs (s.passWith ops cs stage) := by
  cases stage with
  | penalties => exact of_penalizeWith ops s cs
  | topP p => exact of_keepTopWith ops p cs
  | temperature t => exact of_heatWith ops t cs

theorem of_foldl (ops : Arithmetic) (s : Sampler) (stages : List Stage) (cs : List Candidate) :
    Narrows cs (stages.foldl (s.passWith ops) cs) := by
  induction stages generalizing cs with
  | nil => exact refl cs
  | cons stage rest ih => exact (of_passWith ops s cs stage).trans (ih _)

end Narrows

namespace Selection

theorem of_narrows {count : Nat} {before after : List Candidate} (h : Selection count before)
    (hnarrows : Narrows before after) : Selection count after where
  distinct := by
    obtain ⟨tokens, hsame, hsub⟩ := hnarrows.tokens
    exact hsame.nodup_iff.mp (h.distinct.sublist hsub)
  inside c hc := by
    have htoken := hnarrows.tokens.subset (List.mem_map_of_mem hc)
    obtain ⟨d, hd, hsame⟩ := List.mem_map.mp htoken
    rw [← hsame]
    exact h.inside d hd

theorem of_candidates {logits : List Single} (hlength : logits.length ≤ 0x80000000) :
    Selection logits.length (candidates logits) := by
  have hint : ∀ i < logits.length, (Int32.ofNat i).toInt = i := fun i hi =>
    Int32.toInt_ofNat_of_lt (Nat.lt_of_lt_of_le hi hlength)
  constructor
  · rw [List.nodup_iff_pairwise_ne, List.pairwise_iff_getElem]
    intro i j hi hj hlt hsame
    simp only [candidates, List.length_map, List.length_mapIdx] at hi hj
    simp only [candidates, List.getElem_map, List.getElem_mapIdx] at hsame
    have hplace := congrArg Int32.toInt hsame
    rw [hint i hi, hint j hj] at hplace
    omega
  · intro c hc
    obtain ⟨i, hi, rfl⟩ := List.mem_mapIdx.mp hc
    rw [hint i hi]
    omega

end Selection

section Sample

variable (ops : Arithmetic) (s : Sampler) {logits : List Single}

private theorem candidates_eq_nil_iff : candidates logits = [] ↔ logits = [] :=
  List.mapIdx_eq_nil_iff

theorem remainingWith_narrows : Narrows (candidates logits) (s.remainingWith ops logits) := by
  rw [remainingWith_eq_foldl]
  exact Narrows.of_foldl ops s s.stages (candidates logits)

theorem sampleWith_eq_none_iff : s.sampleWith ops logits = none ↔ logits = [] := by
  rw [sampleWith, Option.map_eq_none_iff, best?_eq_none_iff,
    (remainingWith_narrows ops s).eq_nil_iff, candidates_eq_nil_iff]

theorem sample_eq_none_iff : s.sample logits = none ↔ logits = [] :=
  sampleWith_eq_none_iff .single s

end Sample

/-- Whatever a request asks for, whatever tokens were there and whatever the arithmetic comes to: a
stage leaves candidates if there were some, and a selection of tokens stays one. The same holds of
any stages one after the other, those of the sampler among them. So there is no next token only if
there are no logits, and otherwise it is one of the tokens that have a logit. -/
theorem keeps_selection (ops : Arithmetic) (r : Request) (history : List Token)
    (logits : List Single) (hlength : logits.length ≤ 0x80000000) :
    let s := ofHistory r history
    (∀ stage cs, (cs ≠ [] → s.passWith ops cs stage ≠ []) ∧
      ∀ count, Selection count cs → Selection count (s.passWith ops cs stage)) ∧
    (∀ stages : List Stage, let left := stages.foldl (s.passWith ops) (candidates logits)
      Selection logits.length left ∧ (logits ≠ [] → left ≠ [])) ∧
    s.remainingWith ops logits = s.stages.foldl (s.passWith ops) (candidates logits) ∧
    (s.sampleWith ops logits = none ↔ logits = []) ∧
    (logits ≠ [] → ∃ token, s.sampleWith ops logits = some token ∧
      0 ≤ token.toInt ∧ token.toInt < logits.length) ∧
    s.sample logits = s.sampleWith .single logits := by
  intro s
  have hall := Selection.of_candidates hlength
  refine ⟨?_, ?_, remainingWith_eq_foldl ops s logits, sampleWith_eq_none_iff ops s, ?_, rfl⟩
  · intro stage cs
    have hnarrows := Narrows.of_passWith ops s cs stage
    exact ⟨hnarrows.remain, fun count hcs => hcs.of_narrows hnarrows⟩
  · intro stages
    have hnarrows := Narrows.of_foldl ops s stages (candidates logits)
    exact ⟨hall.of_narrows hnarrows,
      fun hsome => hnarrows.remain (mt candidates_eq_nil_iff.mp hsome)⟩
  · intro hsome
    have hnext := mt (sampleWith_eq_none_iff ops s).mp hsome
    obtain ⟨token, htoken⟩ := Option.ne_none_iff_exists'.mp hnext
    obtain ⟨c, hbest, rfl⟩ := Option.map_eq_some_iff.mp htoken
    have hleft := hall.of_narrows (remainingWith_narrows ops s)
    exact ⟨c.token, htoken, hleft.inside c (mem_of_best? hbest)⟩

/-- Every number here is a NaN or infinite, and no comparison with a NaN holds: the weight to reach
is never reached, and the temperature is not zero or less. -/
theorem keeps_selection_nan :
    let nan : Single := ⟨0x7FC00000⟩
    let r : Request :=
      { prompt := "", frequency := some Single.infinity, presence := some nan, topP := some nan,
        temperature := some nan }
    let logits := [nan, Single.infinity, Single.infinity]
    logits.length ≤ 0x80000000 ∧
      Selection 3 ((ofHistory r [2, 0, 2]).remainingWith .single logits) ∧
      ∃ token, (ofHistory r [2, 0, 2]).sample logits = some token ∧
        0 ≤ token.toInt ∧ token.toInt < 3 := by
  intro nan r logits
  have hlength : logits.length ≤ 0x80000000 := by decide
  obtain ⟨-, hstages, hremaining, -, hsome, hsample⟩ :=
    keeps_selection .single r [2, 0, 2] logits hlength
  refine ⟨hlength, ?_, ?_⟩
  · rw [hremaining]
    exact (hstages (ofHistory r [2, 0, 2]).stages).1
  · rw [hsample]
    exact hsome (by simp [logits])

end ModelHost.Completion.Sampler

import ModelHost.Proofs.Text.Encoding
import ModelHost.Proofs.Text.Unsigned
import ModelHost.Settings

/-!
Settings and the variables of the environment. A variable counts if its bytes are a text that is not
empty. Settings are refused exactly if a variable for a number counts and holds no numeral below
2^32 between its blanks; otherwise each field has what its variable says, or what it had.
-/

namespace ModelHost

abbrev Variables := String → Option ByteArray

namespace Variables

def Says (vars : Variables) (name text : String) : Prop :=
  vars name = some text.toUTF8 ∧ text ≠ ""

/-- How a field follows its variable: it is what the text of the variable means, or what it was
where the variable does not count. -/
structure Governs {α : Type} (vars : Variables) (name : String) (means : String → α → Prop)
    (before after : α) : Prop where
  said : ∀ text, vars.Says name text → means text after
  kept : (∀ text, ¬ vars.Says name text) → after = before

end Variables

variable {vars : Variables} {name text : String}

private theorem Environment.nonempty?_eq_some_iff (home : Option String) :
    (Environment.ofVariables vars home).nonempty? name = some text ↔
      vars.Says name text := by
  rw [nonempty?, Option.filter_eq_some_iff, ofVariables, Option.bind_eq_some_iff]
  simp only [Text.Utf8.decodeText?_eq_some_iff, decide_eq_true_eq]
  constructor
  · rintro ⟨⟨content, hcontent, rfl⟩, hne⟩
    exact ⟨hcontent, hne⟩
  · rintro ⟨hcontent, hne⟩
    exact ⟨⟨text.toUTF8, hcontent, rfl⟩, hne⟩

private theorem Environment.nonempty?_eq_none_iff (home : Option String) :
    (Environment.ofVariables vars home).nonempty? name = none ↔
      ∀ text, ¬ vars.Says name text := by
  simp only [Option.eq_none_iff_forall_ne_some, ne_eq, nonempty?_eq_some_iff]

namespace Variables.Governs

variable {α : Type} {means : String → α → Prop} {before after later : α}

theorem getD (vars : Variables) (home : Option String) (name : String) (decode : String → α)
    (before : α) : vars.Governs name (fun text a => a = decode text) before
      ((((Environment.ofVariables vars home).nonempty? name).map decode).getD before) where
  said text htext := by
    rw [(Environment.nonempty?_eq_some_iff home).mpr htext]
    rfl
  kept hnone := by
    rw [(Environment.nonempty?_eq_none_iff home).mpr hnone]
    rfl

theorem eq (hmeans : ∀ text a b, means text a → means text b → a = b)
    (h : vars.Governs name means before after)
    (hlater : vars.Governs name means after later) : later = after := by
  by_cases hset : ∃ text, vars.Says name text
  · obtain ⟨text, htext⟩ := hset
    exact hmeans text later after (hlater.said text htext) (h.said text htext)
  · exact hlater.kept (not_exists.mp hset)

end Variables.Governs

namespace Settings

def Writes (text : String) (n : UInt32) : Prop :=
  Text.Numeral UInt32.size (Text.trim text.toList) n.toNat

theorem readCount_eq_ok_iff {n : UInt32} : readCount text = .ok n ↔ Writes text n := by
  rw [Writes, ← Text.readUnsigned_eq_ok_iff (by decide), readCount]
  cases hread : Text.readUnsigned UInt32.size (Text.trim text.toList) with
  | error reason => simp [Except.map]
  | ok m =>
    have hsmall : m < UInt32.size :=
      ((Text.readUnsigned_eq_ok_iff (by decide)).mp hread).lt
    simp only [Except.map, Except.ok.injEq, ← UInt32.toNat_inj]
    rw [Nat.toUInt32_eq, UInt32.toNat_ofNat_of_lt' hsmall]

theorem Writes.unique {n m : UInt32} (hn : Writes text n) (hm : Writes text m) : n = m :=
  Except.ok.inj ((readCount_eq_ok_iff.mpr hn).symm.trans (readCount_eq_ok_iff.mpr hm))

def Malformed (vars : Variables) (name text : String) : Prop :=
  vars.Says name text ∧ ∀ n, ¬ Writes text n

def MeansCount (text : String) (count : Option UInt32) : Prop :=
  ∃ n, count = some n ∧ Writes text n

theorem MeansCount.unique {count other : Option UInt32} (h : MeansCount text count)
    (hother : MeansCount text other) : count = other := by
  obtain ⟨n, rfl, hn⟩ := h
  obtain ⟨m, rfl, hm⟩ := hother
  rw [hn.unique hm]

section Count

variable (home : Option String) (current : Option UInt32)
  (refuse : String → Text.NumberError → Failure)

private theorem overrideCount_of_malformed (h : Malformed vars name text) :
    ∃ reason, overrideCount current
      ((Environment.ofVariables vars home).nonempty? name) refuse =
        .error (refuse text reason) := by
  rw [(Environment.nonempty?_eq_some_iff home).mpr h.1, overrideCount]
  cases hread : readCount text with
  | error reason => exact ⟨reason, rfl⟩
  | ok n => exact absurd (readCount_eq_ok_iff.mp hread) (h.2 n)

private theorem overrideCount_of_wellFormed (h : ∀ text, ¬ Malformed vars name text) :
    ∃ count, overrideCount current
      ((Environment.ofVariables vars home).nonempty? name) refuse = .ok count ∧
        vars.Governs name MeansCount current count := by
  by_cases hset : ∃ text, vars.Says name text
  · obtain ⟨text, htext⟩ := hset
    obtain ⟨n, hn⟩ : ∃ n, Writes text n :=
      Classical.byContradiction fun hnone => h text ⟨htext, not_exists.mp hnone⟩
    have hsetting := (Environment.nonempty?_eq_some_iff home).mpr htext
    refine ⟨some n, ?_, ?_, fun hnone => absurd htext (hnone text)⟩
    · rw [hsetting, overrideCount, readCount_eq_ok_iff.mpr hn]
    · intro other hother
      cases ((Environment.nonempty?_eq_some_iff home).mpr hother).symm.trans hsetting
      exact ⟨n, rfl, hn⟩
  · have hnone := not_exists.mp hset
    refine ⟨current, ?_, fun text htext => absurd htext (hnone text), fun _ => rfl⟩
    rw [(Environment.nonempty?_eq_none_iff home).mpr hnone, overrideCount]

end Count

structure Overridden (vars : Variables) (s t : Settings) : Prop where
  modelsDirectory : vars.Governs "LLM_ENGINE_MODELS_DIR"
    (fun text directory => directory = ⟨text⟩) s.modelsDirectory t.modelsDirectory
  client : vars.Governs "LLM_ENGINE_CLIENT_VERSION"
    (fun text version => version = text) s.client t.client
  threads : vars.Governs "LLM_ENGINE_THREADS" MeansCount s.threads t.threads
  gpuLayers : vars.Governs "LLM_ENGINE_GPU_LAYERS" MeansCount s.gpuLayers t.gpuLayers
  downloadTimeout : t.downloadTimeout = s.downloadTimeout
  connectTimeout : t.connectTimeout = s.connectTimeout

theorem Overridden.eq {s t u : Settings} (h : Overridden vars s t)
    (hagain : Overridden vars t u) : u = t := by
  obtain ⟨directory, client, threads, layers, download, connect⟩ := u
  obtain rfl := h.modelsDirectory.eq (fun _ _ _ ha hb => ha.trans hb.symm) hagain.modelsDirectory
  obtain rfl := h.client.eq (fun _ _ _ ha hb => ha.trans hb.symm) hagain.client
  obtain rfl := h.threads.eq (fun _ _ _ ha hb => ha.unique hb) hagain.threads
  obtain rfl := h.gpuLayers.eq (fun _ _ _ ha hb => ha.unique hb) hagain.gpuLayers
  obtain rfl := hagain.downloadTimeout
  obtain rfl := hagain.connectTimeout
  rfl

theorem override_eq_ok {s : Settings} {environment : Environment} {threads layers : Option UInt32}
    (hthreads : overrideCount s.threads (environment.nonempty? "LLM_ENGINE_THREADS") .badThreads =
      .ok threads)
    (hlayers : overrideCount s.gpuLayers (environment.nonempty? "LLM_ENGINE_GPU_LAYERS")
      .badGpuLayers = .ok layers) :
    s.override environment = .ok { s with
      modelsDirectory :=
        ((environment.nonempty? "LLM_ENGINE_MODELS_DIR").map Path.mk).getD s.modelsDirectory
      client := (environment.nonempty? "LLM_ENGINE_CLIENT_VERSION").getD s.client
      threads
      gpuLayers := layers } := by
  rw [override, hthreads, hlayers]
  rfl

section Override

variable (s : Settings) (home : Option String)

private theorem override_of_threads (h : Malformed vars "LLM_ENGINE_THREADS" text) :
    ∃ reason, s.override (Environment.ofVariables vars home) =
      .error (.badThreads text reason) := by
  obtain ⟨reason, hthreads⟩ := overrideCount_of_malformed home s.threads .badThreads h
  refine ⟨reason, ?_⟩
  rw [override, hthreads]
  rfl

private theorem override_of_gpuLayers
    (hthreads : ∀ text, ¬ Malformed vars "LLM_ENGINE_THREADS" text)
    (h : Malformed vars "LLM_ENGINE_GPU_LAYERS" text) :
    ∃ reason, s.override (Environment.ofVariables vars home) =
      .error (.badGpuLayers text reason) := by
  obtain ⟨count, hcount, -⟩ := overrideCount_of_wellFormed home s.threads .badThreads hthreads
  obtain ⟨reason, hlayers⟩ := overrideCount_of_malformed home s.gpuLayers .badGpuLayers h
  refine ⟨reason, ?_⟩
  rw [override, hcount, hlayers]
  rfl

theorem override_of_wellFormed
    (hthreads : ∀ text, ¬ Malformed vars "LLM_ENGINE_THREADS" text)
    (hlayers : ∀ text, ¬ Malformed vars "LLM_ENGINE_GPU_LAYERS" text) :
    ∃ t, s.override (Environment.ofVariables vars home) = .ok t ∧
      Overridden vars s t := by
  obtain ⟨threads, hcount, hthreads⟩ :=
    overrideCount_of_wellFormed home s.threads .badThreads hthreads
  obtain ⟨layers, hcount', hlayers⟩ :=
    overrideCount_of_wellFormed home s.gpuLayers .badGpuLayers hlayers
  have hclient := Variables.Governs.getD vars home "LLM_ENGINE_CLIENT_VERSION" id s.client
  rw [Option.map_id] at hclient
  exact ⟨_, override_eq_ok hcount hcount', .getD .., hclient, hthreads, hlayers, rfl, rfl⟩

end Override

/-- Settings are refused exactly if a variable for a number counts and writes none, of two such
variables for the threads; else each field follows its variable, and does so but once. -/
theorem override_environment (s : Settings) (vars : Variables) (home : Option String) :
    let overridden := s.override (Environment.ofVariables vars home)
    ((∃ failure, overridden = .error failure) ↔
        ∃ text, Malformed vars "LLM_ENGINE_THREADS" text ∨
          Malformed vars "LLM_ENGINE_GPU_LAYERS" text) ∧
      (∀ text, Malformed vars "LLM_ENGINE_THREADS" text →
        ∃ reason, overridden = .error (.badThreads text reason)) ∧
      (∀ text, Malformed vars "LLM_ENGINE_GPU_LAYERS" text →
        (∀ text, ¬ Malformed vars "LLM_ENGINE_THREADS" text) →
          ∃ reason, overridden = .error (.badGpuLayers text reason)) ∧
      ∀ t, overridden = .ok t → Overridden vars s t ∧
        t.override (Environment.ofVariables vars home) = .ok t := by
  intro overridden
  have hthreads : ∀ text, Malformed vars "LLM_ENGINE_THREADS" text →
      ∃ reason, overridden = .error (.badThreads text reason) :=
    fun _ h => override_of_threads s home h
  have hlayers : ∀ text, Malformed vars "LLM_ENGINE_GPU_LAYERS" text →
      (∀ text, ¬ Malformed vars "LLM_ENGINE_THREADS" text) →
        ∃ reason, overridden = .error (.badGpuLayers text reason) :=
    fun _ h hnone => override_of_gpuLayers s home hnone h
  by_cases hbad : ∃ text, Malformed vars "LLM_ENGINE_THREADS" text ∨
      Malformed vars "LLM_ENGINE_GPU_LAYERS" text
  · obtain ⟨failure, hfailure⟩ : ∃ failure, overridden = .error failure := by
      by_cases hfirst : ∃ text, Malformed vars "LLM_ENGINE_THREADS" text
      · obtain ⟨text, htext⟩ := hfirst
        obtain ⟨reason, hreason⟩ := hthreads text htext
        exact ⟨_, hreason⟩
      · obtain ⟨text, htext | htext⟩ := hbad
        · exact absurd ⟨text, htext⟩ hfirst
        · obtain ⟨reason, hreason⟩ := hlayers text htext (not_exists.mp hfirst)
          exact ⟨_, hreason⟩
    refine ⟨iff_of_true ⟨failure, hfailure⟩ hbad, hthreads, hlayers, fun t ht => ?_⟩
    rw [hfailure] at ht
    cases ht
  · have hnone := not_exists.mp hbad
    have hgood : ∀ s : Settings, ∃ t, s.override (Environment.ofVariables vars home) = .ok t ∧
        Overridden vars s t := fun s =>
      override_of_wellFormed s home (fun text h => hnone text (.inl h)) fun text h =>
        hnone text (.inr h)
    obtain ⟨t, ht, hfollowed⟩ := hgood s
    obtain ⟨u, hu, hagain⟩ := hgood t
    refine ⟨iff_of_false ?_ hbad, hthreads, hlayers, ?_⟩
    · rintro ⟨failure, hfailure⟩
      cases hfailure.symm.trans ht
    · intro t' ht'
      cases ht'.symm.trans ht
      exact ⟨hfollowed, hfollowed.eq hagain ▸ hu⟩

end Settings

end ModelHost

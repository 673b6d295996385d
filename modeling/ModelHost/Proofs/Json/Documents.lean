import ModelHost.Completion.Response
import ModelHost.HostError
import ModelHost.Proofs.Json.Record
import ModelHost.Settings
import ModelHost.TextVector

/-!
Documents. What a host writes about its models, its settings, its errors and its answers is read
back as it was, whatever the texts, the numbers and the unset fields in it.
-/

namespace ModelHost

open Json (Lossless Present present_ofString present_uint32 present_uint64 fields?_record)

theorem Path.present_toJson : Present Path.toJson Path.ofJson? where
  plain p := .string p.text
  decode_encode _ := rfl
  ne_null _ h := by cases h

theorem Mode.lossless_toJson : Lossless Mode.toJson Mode.ofJson? where
  plain m := .string m.name
  decode_encode m := by cases m <;> rfl

theorem Completion.Finish.lossless_toJson : Lossless Finish.toJson Finish.ofJson? where
  plain f := .string f.name
  decode_encode f := by cases f <;> rfl

theorem Source.present_toJson : Present Source.toJson Source.ofJson? where
  plain s := .record _ <| by
    simp [present_ofString.plain, present_ofString.plain_ofOption,
      Path.present_toJson.plain_ofOption]
  decode_encode s := by
    rw [ofJson?, toJson, fields?_record]
    · simp [present_ofString.required_encode, present_ofString.optional_ofOption,
        Path.present_toJson.optional_ofOption]
    · rfl
    · decide
  ne_null _ h := by cases h

theorem Descriptor.lossless_toJson : Lossless Descriptor.toJson Descriptor.ofJson? where
  plain d := .record _ <| by
    simp [present_ofString.plain, present_ofString.plain_ofOption, present_uint32.plain,
      Mode.lossless_toJson.plain, Path.present_toJson.plain_ofOption,
      Source.present_toJson.plain_ofOption]
  decode_encode d := by
    rw [ofJson?, toJson, fields?_record]
    · simp [present_ofString.required_encode, present_ofString.optional_ofOption,
        present_uint32.defaulted_encode, Mode.lossless_toJson.defaulted_encode,
        Path.present_toJson.optional_ofOption, Source.present_toJson.optional_ofOption]
    · rfl
    · decide

theorem Settings.lossless_toJson (standard : Settings) :
    Lossless Settings.toJson (Settings.ofJson? standard) where
  plain s := .record _ <| by
    simp [present_ofString.plain, present_uint64.plain, present_uint32.plain_ofOption,
      Path.present_toJson.plain]
  decode_encode s := by
    rw [ofJson?, toJson, fields?_record]
    · simp [present_ofString.defaulted_encode, present_uint64.defaulted_encode,
        present_uint32.optional_ofOption, Path.present_toJson.defaulted_encode]
    · rfl
    · decide

theorem Completion.Response.lossless_toJson :
    Lossless Response.toJson Response.ofJson? where
  plain r := .record _ <| by
    simp [present_ofString.plain, present_uint32.plain, Finish.lossless_toJson.plain]
  decode_encode r := by
    rw [ofJson?, toJson, fields?_record]
    · simp [present_ofString.required_encode, present_uint32.required_encode,
        Finish.lossless_toJson.required_encode]
    · rfl
    · decide

private theorem HostError.downloadFailedOfJson?_payload (model reason : String) :
    downloadFailedOfJson? (payload (.downloadFailed model reason)) =
      some (.downloadFailed model reason) := by
  rw [downloadFailedOfJson?, payload, fields?_record]
  · simp [present_ofString.required_encode]
  · rfl
  · decide

private theorem HostError.plain_payload (e : HostError) : e.payload.Plain := by
  cases e with
  | downloadFailed model reason =>
    exact .record _ (by simp [present_ofString.plain])
  | _ => exact .string _

theorem HostError.lossless_toJson : Lossless HostError.toJson HostError.ofJson? where
  plain e := .record _ <| by simp [plain_payload]
  decode_encode e := by
    cases e with
    | downloadFailed model reason => exact downloadFailedOfJson?_payload model reason
    | _ => rfl

theorem TextVector.Input.lossless_toJson : Lossless Input.toJson Input.ofJson? where
  plain input := by
    cases input with
    | single text => exact .string text
    | batch texts => exact present_ofString.list.plain texts
  decode_encode input := by
    cases input with
    | single text => rfl
    | batch texts =>
      exact congrArg (Option.map Input.batch) (present_ofString.list.decode_encode texts)

/-- Every document is read back as what it was written for; an error keeps its message with it, and
whether to try again. Settings are read so whatever the standard ones are. -/
theorem documents_read_back :
    (∀ d : Descriptor, (Json.read? d.toJson.write).bind Descriptor.ofJson? = some d) ∧
    (∀ s : Source, (Json.read? s.toJson.write).bind Source.ofJson? = some s) ∧
    (∀ standard s : Settings,
      (Json.read? s.toJson.write).bind (Settings.ofJson? standard) = some s) ∧
    (∀ e : HostError, ∃ read, (Json.read? e.toJson.write).bind HostError.ofJson? = some read ∧
      read = e ∧ read.message = e.message ∧ read.canRetry = e.canRetry) ∧
    (∀ input : TextVector.Input,
      (Json.read? input.toJson.write).bind TextVector.Input.ofJson? = some input) ∧
    (∀ r : Completion.Response,
      (Json.read? r.toJson.write).bind Completion.Response.ofJson? = some r) :=
  ⟨Descriptor.lossless_toJson.read?_write, Source.present_toJson.read?_write,
    fun standard => (Settings.lossless_toJson standard).read?_write,
    fun e => ⟨e, HostError.lossless_toJson.read?_write e, rfl, rfl, rfl⟩,
    TextVector.Input.lossless_toJson.read?_write, Completion.Response.lossless_toJson.read?_write⟩

/-! Two of the forms: one key that names the kind of an error, and no key at all. -/

example : (HostError.downloadFailed "m" "no\n").toJson.write =
    "\x7b\"ModelDownloadFailed\":\x7b\"model\":\"m\",\"reason\":\"no\\n\"\x7d\x7d" := by
  decide +kernel

example : (TextVector.Input.batch ["a", ""]).toJson.write = "[\"a\",\"\"]" := by decide +kernel

end ModelHost

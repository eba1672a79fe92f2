import LeetBot.Interleave
import LeetBot.Dpp
import LeetBot.LeetoDB
import LeetBot.TextReplace
import LeetBot.LeetCodePageLogic
import LeetBot.LeetCodeAPI
import LeetBot.QuestionAPI
import LeetBot.Handlers
import LeetBot.Commands
import LeetBot.Accounts
import LeetBot.Answers
import LeetBot.Retries
import LeetBot.DescriptionFetch
import LeetBot.Protocol
import LeetBot.AccountSteps
import LeetBot.Ownership
import LeetBot.UniqueRegistration
import LeetBot.ProfileIsolation
import LeetBot.CacheCheck
import LeetBot.FetchCache
import LeetBot.HtmlRendering
import LeetBot.HtmlTags
import LeetBot.CodeFences
import LeetBot.EntityDecoding
import LeetBot.Noninterference
import LeetBot.Paging
import LeetBot.Verification
import LeetBot.JsonPaths
import LeetBot.Loops
import LeetBot.SubmissionStats
import LeetBot.SolutionsFetch
import LeetBot.Narrowing
import LeetBot.TypedMembers
import LeetBot.ProfileReply
import LeetBot.DailyQuestion
import LeetBot.RegistrationOutcome
import LeetBot.StatsColumns
import LeetBot.PageTexts
import LeetBot.SolutionMessages
import LeetBot.ButtonIds
import LeetBot.ReadAuthFile
import LeetBot.Lineage
import LeetBot.Turns
import LeetBot.Errands
import LeetBot.Promises
import LeetBot.Delivery
import LeetBot.Verdicts
import LeetBot.Budgets
import LeetBot.Settling
import LeetBot.Suspension
import LeetBot.AwaitableFuture
import LeetBot.AskedNames
import LeetBot.Refinement
import LeetBot.UserRows
import LeetBot.Directory
import LeetBot.AccountTable
import LeetBot.DirectoryRuns
import LeetBot.ClickAnswers
import LeetBot.RequestOrigins
import LeetBot.Connection
import LeetBot.Replies
import LeetBot.CommandTree
import LeetBot.Controls
import LeetBot.SortedMembers
import LeetBot.JsonDump
import LeetBot.JsonParse
import LeetBot.JsonRoundTrip
import LeetBot.JsonSax
import LeetBot.JsonGrammar
import LeetBot.JsonNumbers
import LeetBot.JsonTexts
import LeetBot.RequestBodies
